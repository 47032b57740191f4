import ClassSketch.Proofs.ChosenNames
import ClassSketch.Proofs.Reachability

/-! What the nodes of a forest say about their classes. A root speaks for itself. A nested class is
what the settled claim says after correction, against the class that it was put under. -/

namespace ClassSketch

section Claims

/-- A claim without the names that the renaming may have changed. -/
def Claim.nameless (c : Claim) : Claim := { c with simpleName := none, renamedFrom := none }

theorem Claim.nameless_named (nameOf : String → String) (c : Claim) :
    (c.named nameOf).nameless = c.nameless := by
  rw [named_eq]
  rfl

/-- Whatever is renamed, the claims are those that are made without renaming. -/
theorem Census.exists_claims_like (g : Ground) (policy : Renaming) :
    ∃ claims : List Claim, (take g policy).table = ClaimTable.ofClaims claims ∧
      claims.map Claim.nameless = g.claims.map Claim.nameless := by
  refine ⟨_, table_take g policy, ?_⟩
  rw [List.map_map]
  exact List.map_congr_left fun c _ => c.nameless_named _

theorem Ground.entryKind_mem (g : Ground) (e : NestingEntry) :
    g.entryKind e ∈ [.member, .localClass, .anonymous] := by
  rw [entryKind]
  split
  · simp
  · split
    · simp
    · split <;> simp

variable {g : Ground} {policy : Renaming}

theorem Census.kind_of_claim? {n : String} {s : Claim}
    (h : (take g policy).table.claim? n = some s) :
    s.kind ∈ [.member, .localClass, .anonymous] := by
  obtain ⟨claims, htable, hlike⟩ := exists_claims_like g policy
  rw [htable] at h
  have hmem := List.mem_map_of_mem (f := Claim.nameless) (ClaimTable.claim?_mem h).1
  rw [hlike] at hmem
  obtain ⟨c, hc, hsame⟩ := List.mem_map.mp hmem
  obtain ⟨e, _, _, hdescription⟩ := Ground.exists_entry_of_mem_claims hc
  have hkind : s.kind = c.kind := (congrArg Claim.kind hsame).symm
  have hentry : c.kind = g.entryKind e := congrArg (·.2.2.1) hdescription
  rw [hkind, hentry]
  exact g.entryKind_mem e

theorem Census.mem_enclosersOf {n p : String} :
    p ∈ (take g policy).table.enclosersOf n ↔ ∃ c ∈ g.claims, c.enclosing = p ∧ c.inner = n := by
  obtain ⟨claims, htable, hlike⟩ := exists_claims_like g policy
  have hpairs : claims.map (fun c => (c.enclosing, c.inner)) =
      g.claims.map fun c => (c.enclosing, c.inner) := by
    have hnameless := congrArg (List.map fun c : Claim => (c.enclosing, c.inner)) hlike
    rwa [List.map_map, List.map_map] at hnameless
  have hmem : ∀ cs : List Claim, (p, n) ∈ cs.map (fun c => (c.enclosing, c.inner)) ↔
      ∃ c ∈ cs, c.enclosing = p ∧ c.inner = n := by
    intro cs
    simp only [List.mem_map, Prod.mk.injEq]
  rw [htable, ClaimTable.mem_enclosersOf, ClaimTable.mem_edges_ofClaims, ← hmem, hpairs, hmem]

end Claims

namespace AccessFlags

theorem getLsbD_localPart (a : AccessFlags) (i : Nat) : a.localPart.bits.getLsbD i =
    (a.bits.getLsbD i && (abstractFlag.bits.getLsbD i || finalFlag.bits.getLsbD i)) := by
  simp only [localPart, inter, union, BitVec.getLsbD_and, BitVec.getLsbD_or]

theorem getLsbD_without (a b : AccessFlags) (i : Nat) :
    (a.without b).bits.getLsbD i = (a.bits.getLsbD i && !b.bits.getLsbD i) := by
  rw [without, BitVec.getLsbD_and, BitVec.getLsbD_not]
  by_cases hi : i < 16
  · simp [hi]
  · simp [hi, BitVec.getLsbD_of_ge a.bits i (Nat.le_of_not_lt hi)]

end AccessFlags

namespace ClassNode

/-- A local class, which keeps no flags but abstract and final. -/
structure IsLocal (n : ClassNode) (claimed : AccessFlags) : Prop where
  kind_eq : n.kind = .localClass
  access_eq : ∀ i, n.access.bits.getLsbD i = (claimed.bits.getLsbD i &&
    (AccessFlags.abstractFlag.bits.getLsbD i || AccessFlags.finalFlag.bits.getLsbD i))

/-- An anonymous class, which keeps all flags but static and is an instance of its first
interface, or else of its superclass. -/
structure IsAnonymous (n : ClassNode) (claimed : AccessFlags) : Prop where
  kind_eq : n.kind = .anonymous
  access_eq : ∀ i, n.access.bits.getLsbD i =
    (claimed.bits.getLsbD i && !AccessFlags.staticFlag.bits.getLsbD i)
  type_eq : n.anonymousType =
    match n.decl.interfaces, n.decl.superclass with
    | first :: _, _ => some (.named first [] 0)
    | [], some superclass => some (.named superclass [] 0)
    | [], none => none

/-- A node under the class `host` is what a claim says after correction. -/
structure Follows (n : ClassNode) (l : Library) (o : Options) (host : ClassDecl) (s : Claim) :
    Prop where
  simpleName_eq : n.simpleName = s.simpleName
  renamedFrom_eq : n.renamedFrom = s.renamedFrom
  kind_mem : s.kind ∈ [.member, .localClass, .anonymous]
  of_member : s.kind = .member → n.kind = .member ∧ n.access = s.access
  of_local : s.kind = .localClass → n.IsLocal s.access
  of_anonymous : s.kind = .anonymous →
    if o.verifyAnonymous = true ∧ Anonymity.objection? l n.decl host ≠ none then
      n.IsLocal s.access
    else n.IsAnonymous s.access

theorem Follows.kind_ne_lambda {n : ClassNode} {l : Library} {o : Options} {host : ClassDecl}
    {s : Claim} (h : n.Follows l o host s) : n.kind ≠ .lambda := by
  have hkind := h.kind_mem
  simp only [List.mem_cons, List.not_mem_nil, or_false] at hkind
  rcases hkind with hs | hs | hs
  · rw [(h.of_member hs).1]
    decide
  · rw [(h.of_local hs).kind_eq]
    decide
  · have hanonymous := h.of_anonymous hs
    split at hanonymous
    · rw [hanonymous.kind_eq]
      decide
    · rw [hanonymous.kind_eq]
      decide

theorem eq_numbered {n m : ClassNode} (h : n.unnumbered = m) : n = m.numbered n.id := by
  subst h
  rfl

variable (d : ClassDecl) (s : Claim) (enclosers : List String) (id : Nat)

theorem isLocal_ofClaim : ((ofClaim d s .localClass enclosers).numbered id).IsLocal s.access :=
  ⟨rfl, s.access.getLsbD_localPart⟩

theorem isAnonymous_ofClaim :
    ((ofClaim d s .anonymous enclosers).numbered id).IsAnonymous s.access := by
  refine ⟨rfl, s.access.getLsbD_without .staticFlag, ?_⟩
  dsimp only [numbered, ofClaim, ofDecl, anonymousTypeAs]
  cases d.interfaces with
  | cons first others => rfl
  | nil => cases d.superclass <;> rfl

theorem follows_ofClaim (l : Library) (o : Options) (host : ClassDecl)
    (hkind : s.kind ∈ [.member, .localClass, .anonymous]) :
    ((ofClaim d s ((Ground.ofLibrary l o).kindUnder host d s) enclosers).numbered id).Follows
      l o host s := by
  have hkept : s.kind ≠ .anonymous → (Ground.ofLibrary l o).kindUnder host d s = s.kind :=
    fun hne => if_neg fun h => hne h.1.1
  have hsome : (Anonymity.objection? l d host).isSome = true ↔
      Anonymity.objection? l d host ≠ none := Option.isSome_iff_ne_none
  refine ⟨rfl, rfl, hkind, fun hs => ?_, fun hs => ?_, fun hs => ?_⟩
  · rw [hkept (by rw [hs]; decide), hs]
    exact ⟨rfl, rfl⟩
  · rw [hkept (by rw [hs]; decide), hs]
    exact isLocal_ofClaim d s enclosers id
  · split
    · next hdemoted =>
      have hlocal : (Ground.ofLibrary l o).kindUnder host d s = .localClass :=
        if_pos ⟨⟨hs, hdemoted.1⟩, hsome.mpr hdemoted.2⟩
      rw [hlocal]
      exact isLocal_ofClaim d s enclosers id
    · next hstands =>
      have hstays : (Ground.ofLibrary l o).kindUnder host d s = .anonymous :=
        (if_neg fun h => hstands ⟨h.1.2, hsome.mp h.2⟩).trans hs
      rw [hstays]
      exact isAnonymous_ofClaim d s enclosers id

end ClassNode

namespace Walk

variable {g : Ground} {t : ClaimTable} {w : Walk} {tree : ClassTree} {r : Tree.Row ClassNode}

theorem Sound.row_decl (h : w.Sound g t) (ht : tree ∈ (Forest.ofLinks g.classes w.links).trees)
    (hr : r ∈ tree.rows) : r.value.decl ∈ g.classes ∧ r.value.decl.name = r.value.name := by
  rcases (Forest.row_ofLinks h.linked_unplaced ht hr).2 with
    ⟨_, c, hc, _, hv⟩ | ⟨_, link, hl, _, hv, _⟩
  · rw [ClassNode.eq_numbered hv]
    exact ⟨hc, rfl⟩
  · obtain ⟨_, _, d, hd, _, _, _, rfl⟩ := h.proper link hl
    rw [ClassNode.eq_numbered hv]
    exact ⟨hd, rfl⟩

theorem Sound.row_root (h : w.Sound g t) (ht : tree ∈ (Forest.ofLinks g.classes w.links).trees)
    (hr : r ∈ tree.rows) (hq : r.parent = none) :
    r.value.kind = .root ∧ r.value.access = r.value.decl.access ∧
      r.value.simpleName = some r.value.decl.simpleName := by
  rcases (Forest.row_ofLinks h.linked_unplaced ht hr).2 with
    ⟨_, c, _, _, hv⟩ | ⟨_, _, _, hsome, _⟩
  · rw [ClassNode.eq_numbered hv]
    exact ⟨rfl, rfl, rfl⟩
  · rw [hq] at hsome
    cases hsome

/-- A class lies under the class that the row of its parent is about. -/
theorem Sound.row_under (h : w.Sound g t) (ht : tree ∈ (Forest.ofLinks g.classes w.links).trees)
    (hr : r ∈ tree.rows) {q : ClassNode} (hq : r.parent = some q) :
    ∃ s, t.claim? r.value.name = some s ∧ r.value.enclosers = t.enclosersOf r.value.name ∧
      r.value.unnumbered = .ofClaim r.value.decl s (g.kindUnder q.decl r.value.decl s)
        (t.enclosersOf r.value.name) := by
  obtain ⟨host, hhost, d, hd, s, hname, hclaim, _, hv⟩ := h.row_link ht hr hq
  obtain ⟨b, rfl⟩ := Forest.ofLinks_numbered _ _ tree ht
  obtain ⟨p, hp, rfl, _⟩ := ClassTree.parent_row hr hq
  obtain ⟨hpmem, hpname⟩ := h.row_decl ht hp
  obtain rfl : p.value.decl = host :=
    List.inj_on_of_nodup_map g.distinct hpmem hhost (hpname.trans hname.symm)
  have hdecl : r.value.decl = d := congrArg ClassNode.decl hv
  have hnode : r.value.name = d.name := congrArg ClassNode.name hv
  have henclosers : r.value.enclosers = t.enclosersOf d.name := congrArg ClassNode.enclosers hv
  rw [hdecl, hnode]
  exact ⟨s, hclaim, henclosers, hv⟩

end Walk

/-- For every library, options and renaming: a root has the flags and the name of its class; every
other node follows the settled claim about its class, judged against the class of its parent, and
lists all classes that were claimed to enclose it. -/
theorem nodes_follow_claims (l : Library) (o : Options) (policy : Renaming) :
    let g := Ground.ofLibrary l o
    ∀ tree ∈ (Forest.build l o policy).1.trees, ∀ r ∈ tree.rows,
      l.find? r.value.name = some r.value.decl ∧ r.value.kind ≠ .lambda ∧
        (r.parent = none → r.value.kind = .root ∧ r.value.access = r.value.decl.access ∧
          r.value.simpleName = some r.value.decl.simpleName) ∧
        ∀ q, r.parent = some q → ∃ s,
          (Census.take g policy).table.claim? r.value.name = some s ∧
            r.value.Follows l o q.decl s ∧ r.value.enclosers.Pairwise (· < ·) ∧
            ∀ p, p ∈ r.value.enclosers ↔
              ∃ c ∈ g.claims, c.enclosing = p ∧ c.inner = r.value.name := by
  intro g tree ht r hr
  have hbuilt : ∃ w : Walk, w.Sound g (Census.take g policy).table ∧
      (Forest.build l o policy).1 = Forest.ofLinks g.classes w.links := by
    by_cases ho : o.nest = true
    · exact ⟨_, Walk.sound_nest _ _, by simp [Forest.build, ho, g]⟩
    · exact ⟨{}, Walk.sound_empty _ _, by simp [Forest.build, ho, g]⟩
  obtain ⟨w, hs, hf⟩ := hbuilt
  rw [hf] at ht
  obtain ⟨hmem, hname⟩ := hs.row_decl ht hr
  have hfind : l.find? r.value.name = some r.value.decl := by
    have hlibrary : r.value.decl ∈ l.classes :=
      (List.mem_filter.mp (List.mem_filter.mp hmem).1).1
    exact (find?_name_eq_some_iff l.distinct).mpr ⟨hlibrary, hname⟩
  have hbelow : ∀ q, r.parent = some q → ∃ s,
      (Census.take g policy).table.claim? r.value.name = some s ∧
        r.value.Follows l o q.decl s ∧
        r.value.enclosers = (Census.take g policy).table.enclosersOf r.value.name := by
    intro q hq
    obtain ⟨s, hclaim, henclosers, hv⟩ := hs.row_under ht hr hq
    have hfollows := ClassNode.follows_ofClaim r.value.decl s
      ((Census.take g policy).table.enclosersOf r.value.name) r.value.id l o q.decl
      (Census.kind_of_claim? hclaim)
    rw [← ClassNode.eq_numbered hv] at hfollows
    exact ⟨s, hclaim, hfollows, henclosers⟩
  refine ⟨hfind, ?_, hs.row_root ht hr, fun q hq => ?_⟩
  · cases hq : r.parent with
    | none =>
      rw [(hs.row_root ht hr hq).1]
      decide
    | some q =>
      obtain ⟨s, _, hfollows, _⟩ := hbelow q hq
      exact hfollows.kind_ne_lambda
  · obtain ⟨s, hclaim, hfollows, henclosers⟩ := hbelow q hq
    rw [henclosers]
    exact ⟨s, hclaim, hfollows, pairwise_sortedNames _, fun p => Census.mem_enclosersOf⟩

/-- A class that is said to be anonymous, and the code around it casts to it. -/
def castAnonymous : Library :=
  let code : List Instruction := [
    { opcode := .new, operand := some "a/A$1" }, { opcode := .checkcast, operand := some "a/A$1" }]
  .ofList [
    { name := "a/A", methods := [{ name := "m", descriptor := "()V", code }]
      nesting := some [{ inner := "a/A$1", access := .union .staticFlag .finalFlag }] },
    { name := "a/A$1", superclass := some "java/lang/Object" }]

theorem castAnonymous_settled :
    (Census.take (.ofLibrary castAnonymous {}) .keep).table.claim? "a/A$1" =
      some { inner := "a/A$1", enclosing := "a/A", kind := .anonymous,
             access := .union .staticFlag .finalFlag, source := "a/A" } := by
  decide

theorem castAnonymous_objected {d host : ClassDecl} (hd : castAnonymous.find? "a/A$1" = some d)
    (hhost : castAnonymous.find? "a/A" = some host) :
    Anonymity.objection? castAnonymous d host ≠ none := by
  obtain rfl := Option.some.inj hd
  obtain rfl := Option.some.inj hhost
  decide

/-- Such a class is local after all; of its flags, final stays and static goes. -/
theorem castAnonymous_is_local : ∃ tree ∈ (Forest.build castAnonymous {} .keep).1.trees,
    ∃ r ∈ tree.rows, ∃ q, r.parent = some q ∧ r.value.name = "a/A$1" ∧
      r.value.kind = .localClass ∧ r.value.access.bits.getLsbD 3 = false ∧
      r.value.access.bits.getLsbD 4 = true := by
  obtain ⟨tree, ht, r, hr, q, hq, hname, hqname⟩ :
      ∃ tree ∈ (Forest.build castAnonymous {} .keep).1.trees, ∃ r ∈ tree.rows, ∃ q,
        r.parent = some q ∧ r.value.name = "a/A$1" ∧ q.name = "a/A" := by
    apply Forest.exists_row_of_any
    simp only [Forest.build, Forest.ofLinks, Ground.nest, Ground.unclaimed, ClassTree.rows,
      sortByKey_eq_insertionSort]
    decide +kernel
  obtain ⟨hfind, _, _, hbelow⟩ := nodes_follow_claims castAnonymous {} .keep tree ht r hr
  obtain ⟨s, hclaim, hfollows, _⟩ := hbelow q hq
  obtain ⟨b, hb⟩ := Forest.build_numbered castAnonymous {} .keep tree ht
  obtain ⟨p, hp, rfl, _⟩ := ClassTree.parent_row (hb ▸ hr) hq
  have hhost := (nodes_follow_claims castAnonymous {} .keep tree ht p (hb ▸ hp)).1
  rw [hname] at hclaim hfind
  rw [hqname] at hhost
  obtain rfl := Option.some.inj (castAnonymous_settled.symm.trans hclaim)
  have hlocal := hfollows.of_anonymous rfl
  rw [if_pos ⟨rfl, castAnonymous_objected hfind hhost⟩] at hlocal
  refine ⟨tree, ht, r, hr, _, hq, hname, hlocal.kind_eq, ?_, ?_⟩
  · rw [hlocal.access_eq]
    rfl
  · rw [hlocal.access_eq]
    rfl

end ClassSketch
