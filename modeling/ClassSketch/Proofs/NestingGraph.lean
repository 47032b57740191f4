import ClassSketch.Proofs.LoadOrder
import ClassSketch.Proofs.Tables

/-! The nesting graph of a table of claims. It has an edge for every claim that came in, whichever
claim stands in the end. So it is the same in every order of the claims, although the settled claims
are not. The two directions of the graph may be kept as maps of their own: they stay in step. -/

namespace ClassSketch

/-- Claims and nesting as three maps: the settled claim about each class, the classes that are
nested in it, and the classes that enclose it. -/
structure ClaimMaps where
  claims : Table String Claim := []
  nested : Table String (List String) := []
  enclosing : Table String (List String) := []

namespace ClaimMaps

def claimsWith (t : ClaimMaps) (c : Claim) : Table String Claim :=
  match t.claims.find? c.inner with
  | none => t.claims.insert c.inner c
  | some d => if c.displaces d then t.claims.insert c.inner c else t.claims

/-- Takes a claim in. Each map is updated by itself. -/
def merge (t : ClaimMaps) (c : Claim) : ClaimMaps where
  claims := t.claimsWith c
  nested := t.nested.alter c.enclosing fun names => insertSorted c.inner (names.getD [])
  enclosing := t.enclosing.alter c.inner fun names => insertSorted c.enclosing (names.getD [])

theorem ascending_claimsWith {t : ClaimMaps} (h : t.claims.Ascending) (c : Claim) :
    (t.claimsWith c).Ascending := by
  rw [claimsWith]
  split
  · exact h.alter _ _
  · split
    · exact h.alter _ _
    · exact h

theorem find?_claimsWith {t : ClaimMaps} (h : t.claims.Ascending) (c : Claim) (n : String) :
    (t.claimsWith c).find? n =
      if c.inner = n then some (c.against (t.claims.find? n)) else t.claims.find? n := by
  have hinsert : (t.claims.insert c.inner c).find? n =
      if c.inner = n then some c else t.claims.find? n := by
    rw [Table.insert, h.find?_alter]
    simp only [eq_comm]
  rw [claimsWith]
  by_cases hn : c.inner = n
  · subst hn
    rw [if_pos rfl] at hinsert ⊢
    cases hfind : t.claims.find? c.inner with
    | none => exact hinsert
    | some d =>
      by_cases hd : c.displaces d = true
      · simpa [Claim.against, hd] using hinsert
      · simpa [Claim.against, hd] using hfind
  · rw [if_neg hn] at hinsert ⊢
    split
    · exact hinsert
    · split
      · exact hinsert
      · rfl

theorem getD_find?_alter {t : Table String (List String)} (h : t.Ascending) (k name n : String) :
    ((t.alter k fun names => insertSorted name (names.getD [])).find? n).getD [] =
      if n = k then insertSorted name ((t.find? n).getD []) else (t.find? n).getD [] := by
  rw [h.find?_alter]
  by_cases hn : n = k
  · simp [hn]
  · simp [hn]

end ClaimMaps

namespace ClaimTable

theorem sortedNames_cons (n : String) (ns : List String) :
    sortedNames (n :: ns) = insertSorted n (sortedNames ns) := by
  have hlast : sortedNames (ns ++ [n]) = insertSorted n (sortedNames ns) := List.foldl_append
  rw [← hlast]
  exact sortedNames_congr fun m => by simp [or_comm]

theorem nestedIn_merge (t : ClaimTable) (c : Claim) (n : String) : (t.merge c).nestedIn n =
    if n = c.enclosing then insertSorted c.inner (t.nestedIn n) else t.nestedIn n := by
  rw [nestedIn, nestedIn, merge, List.filterMap_cons]
  by_cases hn : n = c.enclosing
  · simp [hn, sortedNames_cons]
  · simp [hn, Ne.symm hn]

theorem enclosersOf_merge (t : ClaimTable) (c : Claim) (n : String) : (t.merge c).enclosersOf n =
    if n = c.inner then insertSorted c.enclosing (t.enclosersOf n) else t.enclosersOf n := by
  rw [enclosersOf, enclosersOf, merge, List.filterMap_cons]
  by_cases hn : n = c.inner
  · simp [hn, sortedNames_cons]
  · simp [hn, Ne.symm hn]

end ClaimTable

namespace ClaimMaps

/-- The maps say what a table of claims says. -/
structure Mirrors (m : ClaimMaps) (t : ClaimTable) : Prop where
  claims_ascending : m.claims.Ascending
  nested_ascending : m.nested.Ascending
  enclosing_ascending : m.enclosing.Ascending
  claim_eq : ∀ n, m.claims.find? n = t.claim? n
  nested_eq : ∀ n, (m.nested.find? n).getD [] = t.nestedIn n
  enclosing_eq : ∀ n, (m.enclosing.find? n).getD [] = t.enclosersOf n

theorem Mirrors.merge {m : ClaimMaps} {t : ClaimTable} (h : m.Mirrors t) (c : Claim) :
    (m.merge c).Mirrors (t.merge c) where
  claims_ascending := ascending_claimsWith h.claims_ascending c
  nested_ascending := h.nested_ascending.alter _ _
  enclosing_ascending := h.enclosing_ascending.alter _ _
  claim_eq n := by
    rw [ClaimMaps.merge, find?_claimsWith h.claims_ascending, h.claim_eq, ClaimTable.claim?_merge]
  nested_eq n := by
    rw [ClaimMaps.merge, getD_find?_alter h.nested_ascending, h.nested_eq,
      ClaimTable.nestedIn_merge]
  enclosing_eq n := by
    rw [ClaimMaps.merge, getD_find?_alter h.enclosing_ascending, h.enclosing_eq,
      ClaimTable.enclosersOf_merge]

/-- Three maps that are updated side by side stay the one graph with its settled claims. -/
theorem mirrors_merges (cs : List Claim) :
    (cs.foldl ClaimMaps.merge {}).Mirrors (cs.foldl ClaimTable.merge {}) := by
  have hempty : Mirrors {} {} :=
    ⟨.nil, .nil, .nil, fun _ => rfl, fun _ => rfl, fun _ => rfl⟩
  suffices h : ∀ (m : ClaimMaps) (t : ClaimTable), m.Mirrors t →
      (cs.foldl ClaimMaps.merge m).Mirrors (cs.foldl ClaimTable.merge t) from h _ _ hempty
  induction cs with
  | nil => exact fun _ _ h => h
  | cons c cs ih => exact fun _ _ h => ih _ _ (h.merge c)

end ClaimMaps

namespace ClaimTable

/-- Settling a claim adds its class to those that have a claim, and no class has two. -/
theorem inners_settle (c : Claim) (ds : List Claim) :
    (settle c ds).map (·.inner) =
      if c.inner ∈ ds.map (·.inner) then ds.map (·.inner) else ds.map (·.inner) ++ [c.inner] := by
  induction ds with
  | nil => rfl
  | cons d ds ih =>
    by_cases hd : d.inner = c.inner
    · -- whichever of the two stands, it is about the same class
      have hstands : (if c.displaces d then c else d).inner = d.inner := by
        split
        · exact hd.symm
        · rfl
      rw [settle, if_pos hd, List.map_cons, hstands, List.map_cons, hd, if_pos List.mem_cons_self]
    · rw [settle, if_neg hd, List.map_cons, ih, List.map_cons]
      by_cases hm : c.inner ∈ ds.map (·.inner)
      · rw [if_pos hm, if_pos (List.mem_cons_of_mem _ hm)]
      · rw [if_neg hm, if_neg (List.not_mem_cons_of_ne_of_not_mem (Ne.symm hd) hm),
          List.cons_append]

theorem nodup_inners (cs : List Claim) : ((ofClaims cs).settled.map (·.inner)).Nodup := by
  induction cs using List.reverseRecOn with
  | nil => exact List.nodup_nil
  | append_singleton cs c ih =>
    rw [ofClaims_concat, merge, inners_settle]
    split
    next => exact ih
    next hfresh => exact List.nodup_append_comm.mp (List.nodup_cons.mpr ⟨hfresh, ih⟩)

/-- The table knows the claims and nothing else. Its two views of the nesting are one graph, in which
names ascend; a class is claimed if some claim is about it, and then the table holds one such claim,
as it came in. -/
structure Records (t : ClaimTable) (cs : List Claim) : Prop where
  views_agree : ∀ e i, i ∈ t.nestedIn e ↔ e ∈ t.enclosersOf i
  mem_enclosers_iff : ∀ e i, e ∈ t.enclosersOf i ↔ ∃ c ∈ cs, c.inner = i ∧ c.enclosing = e
  ascending : ∀ n, (t.nestedIn n).Pairwise (· < ·) ∧ (t.enclosersOf n).Pairwise (· < ·)
  claimed_iff : ∀ i, t.isClaimed i = true ↔ ∃ c ∈ cs, c.inner = i
  settled_mem : ∀ i s, t.claim? i = some s → s ∈ cs ∧ s.inner = i
  settled_once : (t.settled.map (·.inner)).Nodup

theorem records_ofClaims (cs : List Claim) : (ofClaims cs).Records cs where
  views_agree _ _ := mem_nestedIn.trans mem_enclosersOf.symm
  mem_enclosers_iff e i := by
    rw [mem_enclosersOf, mem_edges_ofClaims]
    exact exists_congr fun c => and_congr_right fun _ => and_comm
  ascending _ := ⟨pairwise_sortedNames _, pairwise_sortedNames _⟩
  claimed_iff _ := isClaimed_ofClaims
  settled_mem _ _ := claim?_mem
  settled_once := nodup_inners cs

/-- However claims are merged, the graph has the nesting of each of them and no other, and classes
are claimed as the claims say; maps for the two directions of the graph and for the settled claims
that are updated side by side say the same. The graph stays the same when claims come in another
order, or more than once. -/
theorem graph_is_the_claims (cs : List Claim) :
    (cs.foldl merge {}).Records cs ∧ (cs.foldl ClaimMaps.merge {}).Mirrors (cs.foldl merge {}) ∧
      ∀ ds : List Claim, (∀ c, c ∈ ds ↔ c ∈ cs) → ∀ n,
        (ds.foldl merge {}).nestedIn n = (cs.foldl merge {}).nestedIn n ∧
          (ds.foldl merge {}).enclosersOf n = (cs.foldl merge {}).enclosersOf n := by
  refine ⟨records_ofClaims cs, ClaimMaps.mirrors_merges cs, fun ds h n => ?_⟩
  have hedges : ∀ e i, (e, i) ∈ (ofClaims ds).edges ↔ (e, i) ∈ (ofClaims cs).edges := by
    intro e i
    simp only [mem_edges_ofClaims, h]
  exact ⟨nestedIn_congr hedges n, enclosersOf_congr hedges n⟩

/-- Two classes that neither are the nested one nor enclose it put it into different ones. -/
def rivals : List Claim :=
  [{ inner := "a/O$I", enclosing := "a/O", kind := .member, source := "a/T" },
    { inner := "a/O$I", enclosing := "a/P", kind := .localClass, source := "a/U" }]

theorem graph_is_the_claims_rivals :
    (∀ c, c ∈ rivals.reverse ↔ c ∈ rivals) ∧
      ((rivals.reverse.foldl merge {}).enclosersOf "a/O$I" = ["a/O", "a/P"] ∧
        (rivals.foldl merge {}).enclosersOf "a/O$I" = ["a/O", "a/P"]) ∧
      (rivals.reverse.foldl merge {}).claim? "a/O$I" ≠ (rivals.foldl merge {}).claim? "a/O$I" := by
  have hsame : ∀ c, c ∈ rivals.reverse ↔ c ∈ rivals := fun c => List.mem_reverse
  obtain ⟨_, _, hgraph⟩ := graph_is_the_claims rivals
  have hforward : (rivals.foldl merge {}).enclosersOf "a/O$I" = ["a/O", "a/P"] := by
    decide +kernel
  have hbackward := (hgraph rivals.reverse hsame "a/O$I").2
  exact ⟨hsame, ⟨hbackward.trans hforward, hforward⟩, by decide⟩

end ClaimTable

end ClassSketch
