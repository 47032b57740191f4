import ClassSketch.Proofs.Grafting

/-! What a walk does to the links, whatever the claims. Only claimed classes are put under others,
each at most once, and only under a class that is a root or was put somewhere before. -/

namespace ClassSketch

/-- Distinct keys have one ascending order. -/
theorem eq_of_perm_of_pairwise {α : Type} (key : α → String) {xs ys : List α} (h : xs.Perm ys)
    (hnd : (xs.map key).Nodup) (hx : xs.Pairwise fun a b => key a ≤ key b)
    (hy : ys.Pairwise fun a b => key a ≤ key b) : xs = ys := by
  refine List.Perm.eq_of_pairwise ?_ hx hy h
  intro a b ha hb hab hba
  exact List.inj_on_of_nodup_map hnd ha (h.mem_iff.mpr hb) (String.le_antisymm hab hba)

theorem sortByKey_eq_of_perm {α : Type} {key : α → String} {xs ys : List α} (h : xs.Perm ys)
    (hnd : (xs.map key).Nodup) : sortByKey key xs = sortByKey key ys := by
  have hx := perm_sortByKey key xs
  have hy := perm_sortByKey key ys
  refine eq_of_perm_of_pairwise key (hx.trans (h.trans hy.symm)) ?_ (pairwise_sortByKey key xs)
    (pairwise_sortByKey key ys)
  exact (hx.map key).nodup_iff.mpr hnd

theorem find?_name_eq_some_iff {cs : List ClassDecl} (hnd : (cs.map (·.name)).Nodup) {n : String}
    {d : ClassDecl} : cs.find? (fun c => c.name == n) = some d ↔ d ∈ cs ∧ d.name = n := by
  constructor
  · intro h
    exact ⟨List.mem_of_find?_eq_some h, by simpa using List.find?_some h⟩
  · rintro ⟨hd, rfl⟩
    cases h : cs.find? fun c => c.name == d.name with
    | none => simpa using List.find?_eq_none.mp h d hd
    | some c =>
      have hc : c.name = d.name := by simpa using List.find?_some h
      rw [List.inj_on_of_nodup_map hnd (List.mem_of_find?_eq_some h) hd hc]

namespace Ground

def names (g : Ground) : List String := g.classes.map (·.name)

theorem find?_eq_some_iff {g : Ground} {n : String} {d : ClassDecl} :
    g.find? n = some d ↔ d ∈ g.classes ∧ d.name = n :=
  find?_name_eq_some_iff g.distinct

theorem find?_eq_none_iff {g : Ground} {n : String} : g.find? n = none ↔ n ∉ g.names := by
  simp [find?, names]

/-- An entry of the class lists the other one, and some claim puts it there. -/
def Nests (g : Ground) (t : ClaimTable) (p c : String) : Prop :=
  c ∈ g.names ∧ c ∈ t.nestedIn p ∧
    ∃ d ∈ g.classes, d.name = p ∧ ∃ e ∈ d.nestingEntries, e.inner = c

instance (g : Ground) (t : ClaimTable) (p c : String) : Decidable (g.Nests t p c) :=
  inferInstanceAs (Decidable (_ ∧ _ ∧ _))

/-- The kind that a claim gives to a class, corrected if the class is not anonymous after all. -/
def kindUnder (g : Ground) (parent child : ClassDecl) (claim : Claim) : NestKind :=
  if (claim.kind = .anonymous ∧ g.options.verifyAnonymous) ∧
      (Anonymity.objection? g.library child parent).isSome then .localClass
  else claim.kind

def linkUnder (g : Ground) (t : ClaimTable) (parent child : ClassDecl) (claim : Claim) : Link :=
  ⟨.ofClaim child claim (g.kindUnder parent child claim) (t.enclosersOf child.name), parent.name⟩

@[simp] theorem linkUnder_name (g : Ground) (t : ClaimTable) (parent child : ClassDecl)
    (claim : Claim) : (g.linkUnder t parent child claim).child.name = child.name := rfl

@[simp] theorem linkUnder_parent (g : Ground) (t : ClaimTable) (parent child : ClassDecl)
    (claim : Claim) : (g.linkUnder t parent child claim).parent = parent.name := rfl

theorem unclaimed_perm (g : Ground) (t : ClaimTable) :
    (g.unclaimed t).Perm (g.names.filter fun n => !t.isClaimed n) :=
  perm_sortByKey _ _

theorem mem_unclaimed {g : Ground} {t : ClaimTable} {n : String} :
    n ∈ g.unclaimed t ↔ n ∈ g.names ∧ t.isClaimed n = false := by
  rw [(g.unclaimed_perm t).mem_iff, List.mem_filter]
  simp

theorem nodup_unclaimed (g : Ground) (t : ClaimTable) : (g.unclaimed t).Nodup :=
  (g.unclaimed_perm t).nodup_iff.mpr (g.distinct.filter _)

theorem sorted_unclaimed (g : Ground) (t : ClaimTable) : (g.unclaimed t).Pairwise (· ≤ ·) :=
  pairwise_sortByKey id _

end Ground

theorem Linked.mono {roots roots' : List String} {links : List Link} (h : Linked roots links)
    (hsub : ∀ n ∈ roots, n ∈ roots') (hdis : ∀ n ∈ links.map (·.child.name), n ∉ roots') :
    Linked roots' links := by
  induction h with
  | nil => exact .nil
  | cons _ parent _ fresh ih =>
    refine .cons (ih fun n hn => hdis n (List.mem_cons_of_mem _ hn)) (parent.imp (hsub _) id) ?_
      fresh
    exact hdis _ List.mem_cons_self

theorem Linked.parent_mem {roots : List String} {links : List Link} (h : Linked roots links) :
    ∀ link ∈ links, link.parent ∈ roots ∨ link.parent ∈ links.map (·.child.name) := by
  induction h with
  | nil => simp
  | cons _ parent _ _ ih =>
    intro link hm
    rcases List.mem_cons.mp hm with rfl | hm
    · exact parent.imp id (List.mem_cons_of_mem _)
    · exact (ih link hm).imp id (List.mem_cons_of_mem _)

theorem exists_link_of_liesAbove {c p : String} {links : List Link}
    (h : liesAbove c p links = true) : ∃ link ∈ links, link.parent = c := by
  induction links generalizing p with
  | nil => simp [liesAbove] at h
  | cons link links ih =>
    by_cases he : link.child.name = p
    · simp only [liesAbove, he, if_true, Bool.or_eq_true, beq_iff_eq] at h
      rcases h with h | h
      · exact ⟨link, List.mem_cons_self, h⟩
      · obtain ⟨l, hl, hp⟩ := ih h
        exact ⟨l, List.mem_cons_of_mem _ hl, hp⟩
    · simp only [liesAbove, he, if_false] at h
      obtain ⟨l, hl, hp⟩ := ih h
      exact ⟨l, List.mem_cons_of_mem _ hl, hp⟩

namespace Walk

theorem isPlaced_iff {w : Walk} {n : String} :
    w.isPlaced n = true ↔ n ∈ w.links.map (·.child.name) := by
  simp [isPlaced]

@[simp] theorem links_place (g : Ground) (t : ClaimTable) (parent child : ClassDecl) (claim : Claim)
    (w : Walk) :
    (w.place g t parent child claim).links = g.linkUnder t parent child claim :: w.links := by
  by_cases h : claim.kind = .anonymous ∧ g.options.verifyAnonymous = true
  · simp [place, Ground.linkUnder, Ground.kindUnder, h]
  · simp [place, Ground.linkUnder, Ground.kindUnder, h]

@[simp] theorem queue_place (g : Ground) (t : ClaimTable) (parent child : ClassDecl) (claim : Claim)
    (w : Walk) : (w.place g t parent child claim).queue = w.queue ++ [child.name] := rfl

@[simp] theorem met_place (g : Ground) (t : ClaimTable) (parent child : ClassDecl) (claim : Claim)
    (w : Walk) : (w.place g t parent child claim).met = w.met := rfl

theorem visitEntry_found {g : Ground} {parent child : ClassDecl} {nested : List String} {w : Walk}
    {e : NestingEntry} (t : ClaimTable) (hn : e.inner ∈ nested) (hm : e.inner ∉ w.met)
    (hc : child ∈ g.classes) (hname : child.name = e.inner) :
    visitEntry g t parent nested w e =
      if e.inner = parent.name ∨ w.isPlaced e.inner = true ∨
          liesAbove e.inner parent.name w.links = true then
        ({ w with met := e.inner :: w.met } : Walk).warn (.alreadyNested child.name)
      else match t.claim? e.inner with
        | none => { w with met := e.inner :: w.met }
        | some claim =>
          ({ w with met := e.inner :: w.met } : Walk).place g t parent child claim := by
  have hf := Ground.find?_eq_some_iff.mpr ⟨hc, hname⟩
  have hplaced :
      ({ w with met := e.inner :: w.met } : Walk).isPlaced e.inner = w.isPlaced e.inner := rfl
  cases hcl : t.claim? e.inner with
  | none => simp [visitEntry, hn, hm, hf, hname, hplaced, hcl, or_assoc]
  | some claim => simp [visitEntry, hn, hm, hf, hname, hplaced, hcl, or_assoc]

/-- One entry either puts its class under the one that lists it, or changes no link. In the second
case a claimed class was met or put somewhere before, or it lies above. -/
theorem visitEntry_cases (g : Ground) (t : ClaimTable) (parent : ClassDecl) (nested : List String)
    (w : Walk) (e : NestingEntry) :
    (∃ child claim, e.inner ∈ nested ∧ child ∈ g.classes ∧ child.name = e.inner ∧
        w.isPlaced e.inner = false ∧ t.claim? e.inner = some claim ∧
        (visitEntry g t parent nested w e).links = g.linkUnder t parent child claim :: w.links ∧
        (visitEntry g t parent nested w e).queue = w.queue ++ [e.inner] ∧
        (visitEntry g t parent nested w e).met = e.inner :: w.met) ∨
      ((visitEntry g t parent nested w e).links = w.links ∧
        (visitEntry g t parent nested w e).queue = w.queue ∧
        ((visitEntry g t parent nested w e).met = w.met ∨
          e.inner ∈ nested ∧ (visitEntry g t parent nested w e).met = e.inner :: w.met) ∧
        (e.inner ∈ nested → e.inner ∈ g.names → t.isClaimed e.inner = true →
          e.inner ∈ w.met ∨ e.inner = parent.name ∨ w.isPlaced e.inner = true ∨
            liesAbove e.inner parent.name w.links = true)) := by
  by_cases hn : e.inner ∈ nested
  swap
  · right
    simp [visitEntry, hn]
  by_cases hm : e.inner ∈ w.met
  · right
    simp [visitEntry, hn, hm]
  cases hf : g.find? e.inner with
  | none =>
    right
    have hg := Ground.find?_eq_none_iff.mp hf
    simp [visitEntry, hn, hm, hf, warn, hg]
  | some child =>
    obtain ⟨hc, hname⟩ := Ground.find?_eq_some_iff.mp hf
    rw [visitEntry_found t hn hm hc hname]
    by_cases hskip : e.inner = parent.name ∨ w.isPlaced e.inner = true ∨
        liesAbove e.inner parent.name w.links = true
    · right
      rw [if_pos hskip]
      exact ⟨rfl, rfl, .inr ⟨hn, rfl⟩, fun _ _ _ => .inr hskip⟩
    · have hplaced : w.isPlaced e.inner = false := by
        simpa using fun h => hskip (.inr (.inl h))
      rw [if_neg hskip]
      cases hcl : t.claim? e.inner with
      | none =>
        right
        exact ⟨rfl, rfl, .inr ⟨hn, rfl⟩, fun _ _ h => by simp [ClaimTable.isClaimed, hcl] at h⟩
      | some claim =>
        left
        exact ⟨child, claim, hn, hc, hname, hplaced, rfl, by simp, by simp [hname], rfl⟩

/-- What holds of the links and the queue after every step. -/
structure Sound (g : Ground) (t : ClaimTable) (w : Walk) : Prop where
  proper : ∀ link ∈ w.links, ∃ parent ∈ g.classes, ∃ child ∈ g.classes, ∃ claim,
    t.claim? child.name = some claim ∧ g.Nests t parent.name child.name ∧
      link = g.linkUnder t parent child claim
  linked : Linked (g.unclaimed t) w.links
  queued : ∀ n ∈ w.queue, n ∈ g.unclaimed t ∨ w.isPlaced n = true

theorem Sound.placed_mem {g : Ground} {t : ClaimTable} {w : Walk} (h : w.Sound g t) :
    ∀ n ∈ w.links.map (·.child.name), n ∈ g.names := by
  intro n hn
  obtain ⟨link, hl, rfl⟩ := List.mem_map.mp hn
  obtain ⟨_, _, child, hc, _, _, _, rfl⟩ := h.proper link hl
  exact List.mem_map_of_mem hc

theorem Sound.visitEntry {g : Ground} {t : ClaimTable} {parent : ClassDecl} {w : Walk}
    {e : NestingEntry} (h : w.Sound g t) (hp : parent ∈ g.classes)
    (hroot : parent.name ∈ g.unclaimed t ∨ w.isPlaced parent.name = true)
    (he : e ∈ parent.nestingEntries) :
    (w.visitEntry g t parent (t.nestedIn parent.name) e).Sound g t := by
  rcases visitEntry_cases g t parent (t.nestedIn parent.name) w e with
    ⟨child, claim, hn, hc, hname, hplaced, hcl, hl, hq, _⟩ | ⟨hl, hq, _⟩
  · have hnames : e.inner ∈ g.names := hname ▸ List.mem_map_of_mem hc
    have hclaimed : t.isClaimed e.inner = true := by simp [ClaimTable.isClaimed, hcl]
    refine ⟨?_, ?_, ?_⟩
    · intro link hm
      rcases List.mem_cons.mp (hl ▸ hm) with rfl | hm
      · exact ⟨parent, hp, child, hc, claim, hname ▸ hcl,
          hname ▸ ⟨hnames, hn, parent, hp, rfl, e, he, rfl⟩, rfl⟩
      · exact h.proper link hm
    · rw [hl]
      refine .cons h.linked (hroot.imp id isPlaced_iff.mp) ?_ ?_
      · rw [Ground.linkUnder_name, hname, Ground.mem_unclaimed]
        simp [hclaimed]
      · rw [Ground.linkUnder_name, hname, ← isPlaced_iff]
        simp [hplaced]
    · intro n hm
      simp only [isPlaced_iff, hl, List.map_cons, List.mem_cons, Ground.linkUnder_name, hname]
      rw [hq, List.mem_append, List.mem_singleton] at hm
      rcases hm with hm | rfl
      · exact (h.queued n hm).imp id fun hi => .inr (isPlaced_iff.mp hi)
      · exact .inr (.inl rfl)
  · refine ⟨hl ▸ h.proper, hl ▸ h.linked, ?_⟩
    intro n hm
    rw [isPlaced_iff, hl, ← isPlaced_iff]
    exact h.queued n (hq ▸ hm)

theorem isPlaced_visitEntry {g : Ground} {t : ClaimTable} {parent : ClassDecl}
    {nested : List String}
    {w : Walk} {e : NestingEntry} {n : String} (h : w.isPlaced n = true) :
    (w.visitEntry g t parent nested e).isPlaced n = true := by
  rw [isPlaced_iff] at h ⊢
  rcases visitEntry_cases g t parent nested w e with ⟨_, _, _, _, _, _, _, hl, _⟩ | ⟨hl, _⟩
  · rw [hl]
    exact List.mem_cons_of_mem _ h
  · rwa [hl]

theorem visit_cases (g : Ground) (t : ClaimTable) (w : Walk) (n : String) :
    (∃ parent ∈ g.classes, parent.name = n ∧
        w.visit g t n = parent.nestingEntries.foldl (visitEntry g t parent (t.nestedIn n)) w) ∨
      ((w.visit g t n).links = w.links ∧ (w.visit g t n).queue = w.queue ∧
        (w.visit g t n).met = w.met ∧ ∀ c, ¬ g.Nests t n c) := by
  cases hf : g.find? n with
  | none =>
    right
    refine ⟨by simp [visit, hf], by simp [visit, hf], by simp [visit, hf], ?_⟩
    rintro c ⟨_, _, d, hd, rfl, _⟩
    exact Ground.find?_eq_none_iff.mp hf (List.mem_map_of_mem hd)
  | some parent =>
    obtain ⟨hp, hname⟩ := Ground.find?_eq_some_iff.mp hf
    cases hn : t.nestedIn n with
    | nil =>
      right
      refine ⟨by simp [visit, hf, hn], by simp [visit, hf, hn], by simp [visit, hf, hn], ?_⟩
      rintro c ⟨_, hc, _⟩
      simp [hn] at hc
    | cons m ms =>
      cases he : parent.nestingEntries with
      | nil =>
        right
        refine ⟨by simp [visit, hf, hn, he, warn], by simp [visit, hf, hn, he, warn],
          by simp [visit, hf, hn, he, warn], ?_⟩
        rintro c ⟨_, _, d, hd, hdn, e, hed, _⟩
        have hdp : d = parent :=
          Option.some.inj ((Ground.find?_eq_some_iff.mpr ⟨hd, hdn⟩).symm.trans hf)
        simp [hdp, he] at hed
      | cons e es => exact .inl ⟨parent, hp, hname, by simp [visit, hf, hn, he]⟩

theorem Sound.visit {g : Ground} {t : ClaimTable} {w : Walk} {n : String} (h : w.Sound g t)
    (hn : n ∈ g.unclaimed t ∨ w.isPlaced n = true) : (w.visit g t n).Sound g t := by
  rcases visit_cases g t w n with ⟨parent, hp, rfl, hv⟩ | ⟨hl, hq, _⟩
  · rw [hv]
    refine (List.foldlRecOn (motive := fun w : Walk => w.Sound g t ∧
      (parent.name ∈ g.unclaimed t ∨ w.isPlaced parent.name = true)) _ _ ⟨h, hn⟩ ?_).1
    rintro w ⟨hs, hr⟩ e he
    exact ⟨hs.visitEntry hp hr he, hr.imp id isPlaced_visitEntry⟩
  · refine ⟨hl ▸ h.proper, hl ▸ h.linked, fun m hm => ?_⟩
    rw [isPlaced_iff, hl, ← isPlaced_iff]
    exact h.queued m (hq ▸ hm)

theorem Sound.run {g : Ground} {t : ClaimTable} (k : Nat) {w : Walk} (h : w.Sound g t) :
    (w.run g t k).Sound g t := by
  induction k generalizing w with
  | zero => exact h
  | succ k ih =>
    cases hq : w.queue with
    | nil => simpa [Walk.run, hq] using h
    | cons n queue =>
      simp only [Walk.run, hq]
      apply ih
      have hw : ({ w with queue } : Walk).Sound g t :=
        ⟨h.proper, h.linked, fun m hm => h.queued m (hq ▸ List.mem_cons_of_mem _ hm)⟩
      exact hw.visit (h.queued n (hq ▸ List.mem_cons_self))

theorem Sound.fromRoot {g : Ground} {t : ClaimTable} {w : Walk} {root : String} (h : w.Sound g t)
    (hr : root ∈ g.unclaimed t) : (w.fromRoot g t root).Sound g t := by
  apply Sound.run
  exact ⟨h.proper, h.linked, fun n hn => .inl (List.mem_singleton.mp hn ▸ hr)⟩

theorem sound_empty (g : Ground) (t : ClaimTable) : ({} : Walk).Sound g t :=
  ⟨by simp, .nil, by simp⟩

theorem sound_nest (g : Ground) (t : ClaimTable) : (g.nest t).Sound g t := by
  refine List.foldlRecOn (motive := fun w : Walk => w.Sound g t) _ _ (sound_empty g t) ?_
  exact fun w hw root hr => hw.fromRoot hr

end Walk

end ClassSketch
