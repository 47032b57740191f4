import ClassSketch.Nesting.Census
import Mathlib.Data.List.Induction
import Mathlib.Data.List.Perm.Basic

/-! Tables of claims as the outcome of runs of `merge`. What a table knows of a class depends on the
claims about that class only: it is claimed if there are any, and the settled claim is one of
them. A census is such a run. -/

namespace ClassSketch

namespace Claim

theorem agrees_iff {c d : Claim} :
    c.agrees d = true ↔ c.simpleName = d.simpleName ∧ c.kind = d.kind ∧ c.access = d.access := by
  simp [agrees, and_assoc]

theorem agrees_symm {c d : Claim} (h : c.agrees d = true) : d.agrees c = true := by
  obtain ⟨hs, hk, ha⟩ := agrees_iff.mp h
  exact agrees_iff.mpr ⟨hs.symm, hk.symm, ha.symm⟩

theorem agrees_trans {c d e : Claim} (h : c.agrees d = true) (h' : d.agrees e = true) :
    c.agrees e = true := by
  obtain ⟨hs, hk, ha⟩ := agrees_iff.mp h
  obtain ⟨hs', hk', ha'⟩ := agrees_iff.mp h'
  exact agrees_iff.mpr ⟨hs.trans hs', hk.trans hk', ha.trans ha'⟩

/-- A claim is displaced by a different one that a class makes about itself, or that the enclosing
class makes; the first stands against everything, the second against its own source. -/
theorem displaces_iff {new old : Claim} :
    new.displaces old = true ↔
      ¬ old.agrees new = true ∧ old.source ≠ old.inner ∧
        (new.source = new.inner ∨ (new.source = new.enclosing ∧ old.source ≠ new.enclosing)) := by
  by_cases hn : new.source = new.inner <;> by_cases he : new.source = new.enclosing <;>
    by_cases ho : old.source = old.inner <;> by_cases hoe : old.source = new.enclosing <;>
    simp [displaces, rank, hn, he, ho, hoe] <;> grind

/-- The claim that stands once another one about the same class comes in. -/
def against (new : Claim) : Option Claim → Claim
  | none => new
  | some old => if new.displaces old then new else old

end Claim

namespace ClaimTable

def ofClaims (cs : List Claim) : ClaimTable := cs.foldl merge {}

theorem ofClaims_append (cs ds : List Claim) : ofClaims (cs ++ ds) = ds.foldl merge (ofClaims cs) :=
  List.foldl_append

theorem ofClaims_concat (cs : List Claim) (c : Claim) :
    ofClaims (cs ++ [c]) = (ofClaims cs).merge c := by
  rw [ofClaims_append]
  rfl

theorem claim?_merge (t : ClaimTable) (c : Claim) (n : String) :
    (t.merge c).claim? n = if c.inner = n then some (c.against (t.claim? n)) else t.claim? n := by
  obtain ⟨settled, edges⟩ := t
  simp only [claim?, merge]
  induction settled with
  | nil => by_cases h : c.inner = n <;> simp [settle, Claim.against, h]
  | cons d ds ih =>
    by_cases hd : d.inner = c.inner
    · by_cases hn : c.inner = n
      · by_cases hx : c.displaces d = true <;> simp [settle, Claim.against, hd, hn, hx]
      · by_cases hx : c.displaces d = true <;> simp [settle, hd, hn, hx]
    · simp only [settle, hd, if_false, List.find?_cons]
      by_cases hn : d.inner = n
      · have hc : c.inner ≠ n := fun h => hd (hn.trans h.symm)
        simp [hn, hc]
      · rw [beq_eq_false_iff_ne.mpr hn]
        exact ih

theorem claim?_merge_of_ne {t : ClaimTable} {c : Claim} {n : String} (h : c.inner ≠ n) :
    (t.merge c).claim? n = t.claim? n := by
  rw [claim?_merge, if_neg h]

theorem claim?_merge_self (t : ClaimTable) (c : Claim) :
    (t.merge c).claim? c.inner = some (c.against (t.claim? c.inner)) := by
  rw [claim?_merge, if_pos rfl]

theorem claim?_mem {cs : List Claim} {n : String} {s : Claim}
    (h : (ofClaims cs).claim? n = some s) : s ∈ cs ∧ s.inner = n := by
  induction cs using List.reverseRecOn generalizing s with
  | nil => simp [ofClaims, claim?] at h
  | append_singleton cs c ih =>
    rw [ofClaims_concat] at h
    by_cases hc : c.inner = n
    · subst hc
      rw [claim?_merge_self, Option.some.injEq] at h
      cases ho : (ofClaims cs).claim? c.inner with
      | none =>
        rw [ho] at h
        exact ⟨by simp [← h, Claim.against], by simp [← h, Claim.against]⟩
      | some old =>
        obtain ⟨hm, hi⟩ := ih ho
        simp only [ho, Claim.against] at h
        split at h
        · exact ⟨by simp [← h], by rw [← h]⟩
        · exact ⟨by simp [← h, hm], by rw [← h, hi]⟩
    · rw [claim?_merge_of_ne hc] at h
      obtain ⟨hm, hi⟩ := ih h
      exact ⟨List.mem_append_left _ hm, hi⟩

theorem isClaimed_ofClaims {cs : List Claim} {n : String} :
    (ofClaims cs).isClaimed n = true ↔ ∃ c ∈ cs, c.inner = n := by
  induction cs using List.reverseRecOn with
  | nil => simp [ofClaims, isClaimed, claim?]
  | append_singleton cs c ih =>
    rw [ofClaims_concat]
    by_cases hc : c.inner = n
    · subst hc
      simp [isClaimed, claim?_merge_self]
    · rw [isClaimed, claim?_merge_of_ne hc]
      rw [isClaimed] at ih
      simp [ih, hc]

theorem mem_insertSorted {k n : String} {ns : List String} :
    n ∈ insertSorted k ns ↔ n = k ∨ n ∈ ns := by
  induction ns with
  | nil => simp [insertSorted]
  | cons m ns ih =>
    by_cases hlt : k < m
    · simp [insertSorted, hlt]
    · by_cases he : k = m
      · simp [insertSorted, he]
      · simp only [insertSorted, hlt, he, if_false, List.mem_cons, ih]
        exact or_left_comm

theorem mem_sortedNames {n : String} {ns : List String} : n ∈ sortedNames ns ↔ n ∈ ns := by
  induction ns using List.reverseRecOn with
  | nil => simp [sortedNames]
  | append_singleton ns m ih =>
    have hs : sortedNames (ns ++ [m]) = insertSorted m (sortedNames ns) := by
      simp [sortedNames, List.foldl_append]
    rw [hs, mem_insertSorted, ih]
    simp [or_comm]

theorem mem_nestedIn {t : ClaimTable} {e i : String} : i ∈ t.nestedIn e ↔ (e, i) ∈ t.edges := by
  rw [nestedIn, mem_sortedNames, List.mem_filterMap]
  constructor
  · rintro ⟨⟨e', i'⟩, hm, h⟩
    grind
  · exact fun h => ⟨(e, i), h, by simp⟩

theorem mem_enclosersOf {t : ClaimTable} {e i : String} :
    e ∈ t.enclosersOf i ↔ (e, i) ∈ t.edges := by
  rw [enclosersOf, mem_sortedNames, List.mem_filterMap]
  constructor
  · rintro ⟨⟨e', i'⟩, hm, h⟩
    grind
  · exact fun h => ⟨(e, i), h, by simp⟩

theorem mem_edges_ofClaims {cs : List Claim} {e i : String} :
    (e, i) ∈ (ofClaims cs).edges ↔ ∃ c ∈ cs, c.enclosing = e ∧ c.inner = i := by
  induction cs using List.reverseRecOn with
  | nil => simp [ofClaims]
  | append_singleton cs c ih =>
    rw [ofClaims_concat]
    simp only [merge, List.mem_cons, Prod.mk.injEq, ih, List.mem_append, List.not_mem_nil, or_false]
    constructor
    · rintro (⟨rfl, rfl⟩ | ⟨d, hd, h⟩)
      · exact ⟨c, .inr rfl, rfl, rfl⟩
      · exact ⟨d, .inl hd, h⟩
    · rintro ⟨d, hd | rfl, h⟩
      · exact .inr ⟨d, hd, h⟩
      · exact .inl ⟨h.1.symm, h.2.symm⟩

theorem isClaimed_of_mem_nestedIn {cs : List Claim} {e i : String}
    (h : i ∈ (ofClaims cs).nestedIn e) : (ofClaims cs).isClaimed i = true := by
  obtain ⟨c, hc, _, hi⟩ := mem_edges_ofClaims.mp (mem_nestedIn.mp h)
  exact isClaimed_ofClaims.mpr ⟨c, hc, hi⟩

end ClaimTable

namespace Census

theorem table_chooseName (c : Census) (inner simple : String) :
    (c.chooseName inner simple).2.table = c.table := by
  cases h : c.names.lookup inner with
  | none => simp [chooseName, h]
  | some name => simp [chooseName, h]

theorem table_readEntry (g : Ground) (source : String) (c : Census) (e : NestingEntry) :
    (readEntry g source c e).table = c.table ∨
      ∃ claim, (readEntry g source c e).table = c.table.merge claim := by
  cases hs : e.simpleName with
  | none =>
    simp only [readEntry, hs]
    split
    · exact .inl rfl
    · exact .inr ⟨_, rfl⟩
  | some simple =>
    simp only [readEntry, hs]
    split
    · exact .inl (table_chooseName c e.inner simple)
    · exact .inr ⟨_, by rw [add, table_chooseName]⟩

theorem exists_claims (g : Ground) (policy : Renaming) :
    ∃ cs, (take g policy).table = ClaimTable.ofClaims cs := by
  have hstep : ∀ source (c : Census) e, (∃ cs, c.table = ClaimTable.ofClaims cs) →
      ∃ cs, (readEntry g source c e).table = ClaimTable.ofClaims cs := by
    rintro source c e ⟨cs, hc⟩
    rcases table_readEntry g source c e with h | ⟨claim, h⟩
    · exact ⟨cs, h.trans hc⟩
    · exact ⟨cs ++ [claim], by rw [h, hc, ClaimTable.ofClaims_concat]⟩
  refine List.foldlRecOn (motive := fun c : Census => ∃ cs, c.table = ClaimTable.ofClaims cs) _ _
    ⟨[], rfl⟩ fun c hc d _ => ?_
  exact List.foldlRecOn (motive := fun c : Census => ∃ cs, c.table = ClaimTable.ofClaims cs) _ _ hc
    fun c hc e _ => hstep d.name c e hc

theorem isClaimed_of_mem_nestedIn (g : Ground) (policy : Renaming) :
    ∀ p, ∀ c ∈ (take g policy).table.nestedIn p, (take g policy).table.isClaimed c = true := by
  obtain ⟨cs, hcs⟩ := exists_claims g policy
  rw [hcs]
  exact fun p c hc => ClaimTable.isClaimed_of_mem_nestedIn hc

end Census

end ClassSketch
