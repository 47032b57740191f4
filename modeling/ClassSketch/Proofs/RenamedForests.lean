import ClassSketch.Proofs.FirstNames

/-! Forests of one library under different policies for names. A policy changes what classes are
called and nothing else: claims are settled alike, the same classes have a name, and every class lies
in the same class. -/

namespace ClassSketch

namespace Claim

/-- Claims about a class that goes by one name agree on the name if both or none of them give one. -/
theorem agrees_named {c d : Claim} (h : c.inner = d.inner) (nameOf : String → String) :
    (c.named nameOf).agrees (d.named nameOf) =
      (c.simpleName.isSome == d.simpleName.isSome && c.kind == d.kind && c.access == d.access) := by
  have hname : ((c.named nameOf).simpleName == (d.named nameOf).simpleName) =
      (c.simpleName.isSome == d.simpleName.isSome) := by
    rw [simpleName_named, simpleName_named, h]
    cases c.simpleName <;> cases d.simpleName <;> simp
  rw [agrees, hname, kind_named, kind_named, access_named, access_named]

theorem rank_named (c : Claim) (nameOf : String → String) (enclosing : String) :
    (c.named nameOf).rank enclosing = c.rank enclosing := by
  rw [rank, rank, inner_named, source_named]

theorem displaces_named {new old : Claim} (h : old.inner = new.inner)
    (nameOf nameOf' : String → String) : (new.named nameOf).displaces (old.named nameOf) =
      (new.named nameOf').displaces (old.named nameOf') := by
  simp only [displaces, agrees_named h, rank_named, enclosing_named]

end Claim

namespace ClaimTable

theorem edges_ofClaims (cs : List Claim) :
    (ofClaims cs).edges = (cs.map fun c => (c.enclosing, c.inner)).reverse := by
  induction cs using List.reverseRecOn with
  | nil => rfl
  | append_singleton cs c ih =>
    rw [ofClaims_concat, List.map_append, List.reverse_append, ← ih]
    rfl

/-- Which claim about a class is settled on does not depend on what classes are called. -/
theorem exists_claim?_named (cs : List Claim) (n : String) :
    ∃ s : Option Claim, (∀ c ∈ s, c ∈ cs ∧ c.inner = n) ∧
      ∀ nameOf, (ofClaims (cs.map (.named nameOf))).claim? n = s.map (.named nameOf) := by
  induction cs using List.reverseRecOn with
  | nil => exact ⟨none, by simp, fun _ => rfl⟩
  | append_singleton cs c ih =>
    obtain ⟨s, hs, hclaim⟩ := ih
    have hsettled : ∀ nameOf, (ofClaims ((cs ++ [c]).map (.named nameOf))).claim? n =
        if c.inner = n then some ((c.named nameOf).against (s.map (.named nameOf)))
        else s.map (.named nameOf) := by
      intro nameOf
      rw [List.map_append, List.map_singleton, ofClaims_concat, claim?_merge, hclaim,
        Claim.inner_named]
    by_cases hn : c.inner = n
    swap
    · refine ⟨s, fun d hd => ⟨List.mem_append_left _ (hs d hd).1, (hs d hd).2⟩, fun nameOf => ?_⟩
      rw [hsettled, if_neg hn]
    · have hc : c ∈ cs ++ [c] := List.mem_append_right _ (List.mem_singleton_self c)
      simp only [hsettled, if_pos hn]
      cases s with
      | none => exact ⟨some c, by simp [hn], fun _ => rfl⟩
      | some old =>
        obtain ⟨hold, hinner⟩ := hs old rfl
        -- any names decide, so it is done with the names of the classes themselves
        by_cases hd : (c.named id).displaces (old.named id) = true
        · refine ⟨some c, by simp [hn], fun nameOf => ?_⟩
          rw [Option.map_some, Claim.against,
            Claim.displaces_named (hinner.trans hn.symm) nameOf id, if_pos hd, Option.map_some]
        · refine ⟨some old, by simp [hold, hinner], fun nameOf => ?_⟩
          rw [Option.map_some, Claim.against,
            Claim.displaces_named (hinner.trans hn.symm) nameOf id, if_neg hd]

/-- Tables of the same nesting, in which the same classes are claimed. -/
structure NestsLike (t t' : ClaimTable) : Prop where
  edges_eq : t.edges = t'.edges
  isClaimed_eq : ∀ n, t.isClaimed n = t'.isClaimed n

theorem NestsLike.nestedIn {t t' : ClaimTable} (h : t.NestsLike t') (p : String) :
    t.nestedIn p = t'.nestedIn p := by
  rw [ClaimTable.nestedIn, ClaimTable.nestedIn, h.edges_eq]

theorem nestsLike_named (cs : List Claim) (nameOf nameOf' : String → String) :
    (ofClaims (cs.map (.named nameOf))).NestsLike (ofClaims (cs.map (.named nameOf'))) := by
  constructor
  · simp only [edges_ofClaims, List.map_map]
    congr 1
    refine List.map_congr_left fun c _ => ?_
    rw [Function.comp_apply, Function.comp_apply, Claim.enclosing_named, Claim.enclosing_named,
      Claim.inner_named, Claim.inner_named]
  · intro n
    obtain ⟨s, _, hclaim⟩ := exists_claim?_named cs n
    rw [isClaimed, isClaimed, hclaim, hclaim, Option.isSome_map, Option.isSome_map]

end ClaimTable

theorem Census.nestsLike_take (g : Ground) (policy policy' : Renaming) :
    (take g policy).table.NestsLike (take g policy').table := by
  rw [table_take, table_take]
  exact ClaimTable.nestsLike_named ..

namespace Walk

/-- Who was put under whom. -/
def placements (w : Walk) : List (String × String) :=
  w.links.map fun link => (link.child.name, link.parent)

/-- Walks that have put the same classes under the same ones and go on alike. -/
structure Beside (w w' : Walk) : Prop where
  placements_eq : w.placements = w'.placements
  met_eq : w.met = w'.met
  queue_eq : w.queue = w'.queue

theorem isPlaced_eq (w : Walk) (n : String) :
    w.isPlaced n = w.placements.any fun p => p.1 == n := by
  rw [isPlaced, placements, List.any_map]
  rfl

theorem liesAbove_congr {c p : String} {links links' : List Link}
    (h : links.map (fun link => (link.child.name, link.parent)) =
      links'.map fun link => (link.child.name, link.parent)) :
    liesAbove c p links = liesAbove c p links' := by
  induction links generalizing p links' with
  | nil =>
    obtain rfl := List.map_eq_nil_iff.mp h.symm
    rfl
  | cons link links ih =>
    obtain ⟨link', links', rfl, hlink, hlinks⟩ := List.map_eq_cons_iff.mp h.symm
    obtain ⟨hchild, hparent⟩ := Prod.mk.inj hlink
    rw [liesAbove, liesAbove, hchild, hparent, ih hlinks.symm, ih hlinks.symm]

namespace Beside

variable {g : Ground} {t t' : ClaimTable} {w w' : Walk}

theorem warn (h : w.Beside w') (x x' : Warning) : (w.warn x).Beside (w'.warn x') :=
  ⟨h.placements_eq, h.met_eq, h.queue_eq⟩

theorem meet (h : w.Beside w') (n : String) :
    ({ w with met := n :: w.met } : Walk).Beside { w' with met := n :: w'.met } :=
  ⟨h.placements_eq, congrArg (n :: ·) h.met_eq, h.queue_eq⟩

theorem place (h : w.Beside w') (parent child : ClassDecl) (claim claim' : Claim) :
    (w.place g t parent child claim).Beside (w'.place g t' parent child claim') := by
  refine ⟨?_, h.met_eq, ?_⟩
  · rw [placements, placements, links_place, links_place, List.map_cons, List.map_cons]
    exact congrArg ((child.name, parent.name) :: ·) h.placements_eq
  · rw [queue_place, queue_place, h.queue_eq]

theorem visitEntry (h : w.Beside w') (ht : t.NestsLike t') (parent : ClassDecl)
    (nested : List String) (e : NestingEntry) :
    (w.visitEntry g t parent nested e).Beside (w'.visitEntry g t' parent nested e) := by
  -- what decides whether the class is placed is the same for both walks
  have habove : ∀ c p, liesAbove c p w.links = liesAbove c p w'.links :=
    fun c p => liesAbove_congr h.placements_eq
  have hplaced : ∀ n, ({ w with met := e.inner :: w.met } : Walk).isPlaced n =
      ({ w' with met := e.inner :: w'.met } : Walk).isPlaced n := by
    intro n
    rw [isPlaced_eq, isPlaced_eq, (h.meet e.inner).placements_eq]
  have hclaimed : ∀ n, (t.claim? n).isSome = (t'.claim? n).isSome := ht.isClaimed_eq
  have hmeet := h.meet e.inner
  obtain ⟨links, met, queue, warnings⟩ := w
  obtain ⟨links', met', queue', warnings'⟩ := w'
  obtain rfl : met = met' := h.met_eq
  simp only [Walk.visitEntry, hplaced, habove]
  split
  · exact h
  · cases g.find? e.inner with
    | none => exact hmeet.warn _ _
    | some child =>
      dsimp only
      split
      · exact hmeet.warn _ _
      · have hchild := hclaimed child.name
        cases hc : t.claim? child.name <;> cases hc' : t'.claim? child.name
        · exact hmeet
        · simp [hc, hc'] at hchild
        · simp [hc, hc'] at hchild
        · exact hmeet.place parent child _ _

theorem visit (h : w.Beside w') (ht : t.NestsLike t') (n : String) :
    (w.visit g t n).Beside (w'.visit g t' n) := by
  have hentries : ∀ (parent : ClassDecl) (nested : List String) (es : List NestingEntry)
      (w w' : Walk), w.Beside w' → (es.foldl (Walk.visitEntry g t parent nested) w).Beside
        (es.foldl (Walk.visitEntry g t' parent nested) w') := by
    intro parent nested es
    induction es with
    | nil => exact fun _ _ h => h
    | cons e es ih => exact fun _ _ h => ih _ _ (h.visitEntry ht parent nested e)
  simp only [Walk.visit, ht.nestedIn]
  cases g.find? n with
  | none => exact h
  | some parent =>
    cases t'.nestedIn n with
    | nil => exact h
    | cons first nested =>
      cases hes : parent.nestingEntries with
      | nil =>
        simp only [hes]
        exact h.warn _ _
      | cons e es =>
        simp only [hes]
        exact hentries parent _ _ _ _ h

theorem run (h : w.Beside w') (ht : t.NestsLike t') (k : Nat) :
    (w.run g t k).Beside (w'.run g t' k) := by
  induction k generalizing w w' with
  | zero => exact h
  | succ k ih =>
    rw [Walk.run, Walk.run, ← h.queue_eq]
    cases w.queue with
    | nil => exact h
    | cons n queue =>
      have hrest : ({ w with queue } : Walk).Beside { w' with queue } :=
        ⟨h.placements_eq, h.met_eq, rfl⟩
      exact ih (hrest.visit ht n)

theorem nest (ht : t.NestsLike t') : (g.nest t).Beside (g.nest t') := by
  have hroots : g.unclaimed t = g.unclaimed t' := by
    simp only [Ground.unclaimed, ht.isClaimed_eq]
  have hwalks : ∀ (roots : List String) (w w' : Walk), w.Beside w' →
      (roots.foldl (fromRoot g t) w).Beside (roots.foldl (fromRoot g t') w') := by
    intro roots
    induction roots with
    | nil => exact fun _ _ h => h
    | cons root roots ih =>
      intro w w' h
      have hstart : ({ w with met := [root], queue := [root] } : Walk).Beside
          { w' with met := [root], queue := [root] } := ⟨h.placements_eq, rfl, rfl⟩
      exact ih _ _ (hstart.run ht _)
  rw [Ground.nest, Ground.nest, hroots]
  exact hwalks _ _ _ ⟨rfl, rfl, rfl⟩

end Beside

end Walk

namespace Forest

variable (l : Library) (o : Options)

/-- The walks that make the forest under two policies. -/
theorem exists_walks (policy policy' : Renaming) :
    let g := Ground.ofLibrary l o
    ∃ w w' : Walk, w.placements = w'.placements ∧
      (w.Sound g (Census.take g policy).table ∧ (build l o policy).1 = ofLinks g.classes w.links) ∧
      w'.Sound g (Census.take g policy').table ∧
        (build l o policy').1 = ofLinks g.classes w'.links := by
  intro g
  by_cases ho : o.nest = true
  · have hbeside := Walk.Beside.nest (g := g) (Census.nestsLike_take g policy policy')
    exact ⟨_, _, hbeside.placements_eq, ⟨Walk.sound_nest _ _, by simp [build, ho, g]⟩,
      Walk.sound_nest _ _, by simp [build, ho, g]⟩
  · exact ⟨{}, {}, rfl, ⟨Walk.sound_empty _ _, by simp [build, ho, g]⟩,
      Walk.sound_empty _ _, by simp [build, ho, g]⟩

variable {l o}

/-- Under every policy a class lies in the same class. -/
theorem exists_row_under {policy : Renaming} (policy' : Renaming) {tree : ClassTree}
    (ht : tree ∈ (build l o policy).1.trees) {r : Tree.Row ClassNode} (hr : r ∈ tree.rows)
    {q : ClassNode} (hq : r.parent = some q) :
    ∃ tree' ∈ (build l o policy').1.trees, ∃ r' ∈ tree'.rows, ∃ q', r'.parent = some q' ∧
      r'.value.name = r.value.name ∧ q'.name = q.name := by
  obtain ⟨w, w', hplacements, ⟨hw, hf⟩, hw', hf'⟩ := exists_walks l o policy policy'
  rw [hf] at ht
  rw [hf']
  have hrow : ∀ {t : ClaimTable} {w : Walk}, w.Sound (.ofLibrary l o) t → ∀ {tree : ClassTree},
      tree ∈ (ofLinks (Ground.ofLibrary l o).classes w.links).trees →
      ∀ {r : Tree.Row ClassNode}, r ∈ tree.rows → ∀ {q : ClassNode}, r.parent = some q →
        (r.value.name, q.name) ∈ w.placements := by
    intro t w hw tree ht r hr q hq
    obtain ⟨host, _, d, _, s, hhost, _, hlink, hv⟩ := hw.row_link ht hr hq
    have hname : r.value.name = d.name := congrArg ClassNode.name hv
    rw [hname, ← hhost]
    exact List.mem_map.mpr ⟨_, hlink, rfl⟩
  -- the class was placed by the other walk as well, so it has a row below a root there
  have hplaced := hrow hw ht hr hq
  rw [hplacements] at hplaced
  have hchild : r.value.name ∈ w'.links.map (·.child.name) := by
    obtain ⟨link, hlink, he⟩ := List.mem_map.mp hplaced
    exact List.mem_map.mpr ⟨link, hlink, congrArg Prod.fst he⟩
  obtain ⟨tree', ht', r', hr', hname, hsome⟩ := hw'.below_root_iff.mpr hchild
  obtain ⟨q', hq'⟩ := Option.isSome_iff_exists.mp hsome
  have hplaced' := hrow hw' ht' hr' hq'
  have hnodup : (w'.placements.map Prod.fst).Nodup := by
    rw [Walk.placements, List.map_map]
    exact hw'.linked.nodup_names
  have hsame := List.inj_on_of_nodup_map hnodup hplaced' hplaced hname
  exact ⟨tree', ht', r', hr', q', hq', hname, congrArg Prod.snd hsame⟩

theorem Distinct.row_unique {f : Forest} (h : f.Distinct) {s t : ClassTree}
    {q r : Tree.Row ClassNode} (hs : s ∈ f.trees) (hq : q ∈ s.rows) (ht : t ∈ f.trees)
    (hr : r ∈ t.rows) (hname : q.value.name = r.value.name) : q = r := by
  have hqn := ClassTree.mem_nodes_of_mem_rows hq
  have hrn := ClassTree.mem_nodes_of_mem_rows hr
  obtain rfl := h.tree_unique hs ht (List.mem_map_of_mem hqn) (hname ▸ List.mem_map_of_mem hrn)
  have hnames : s.names.Nodup := (List.nodup_flatMap.mp h.nodup).1 s hs
  have hvalue : q.value = r.value := List.inj_on_of_nodup_map hnames hqn hrn hname
  exact Tree.row_unique (hnames.of_map _) (ClassTree.mem_rows_iff.mp hq)
    (ClassTree.mem_rows_iff.mp hr) hvalue

/-- Under every policy the same classes lie side by side. -/
theorem exists_siblings {policy : Renaming} (policy' : Renaming) {tree : ClassTree}
    (ht : tree ∈ (build l o policy).1.trees) {r : Tree.Row ClassNode} (hr : r ∈ tree.rows)
    {a b : ClassNode} (ha : a ∈ r.children) (hb : b ∈ r.children) :
    ∃ tree' ∈ (build l o policy').1.trees, ∃ r' ∈ tree'.rows, ∃ a' ∈ r'.children,
      ∃ b' ∈ r'.children, a'.name = a.name ∧ b'.name = b.name := by
  have hrow : ∀ c ∈ r.children, ∃ tree' ∈ (build l o policy').1.trees, ∃ q ∈ tree'.rows,
      q.value.name = r.value.name ∧ ∃ c' ∈ q.children, c'.name = c.name := by
    intro c hc
    obtain ⟨s, hs, rfl, hparent⟩ := Tree.child_row (ClassTree.mem_rows_iff.mp hr) hc
    obtain ⟨tree', ht', s', hs', q', hq', hname, hqname⟩ :=
      exists_row_under policy' ht (ClassTree.mem_rows_iff.mpr hs) hparent
    obtain ⟨q, hq, rfl, hmem⟩ := ClassTree.parent_row hs' hq'
    exact ⟨tree', ht', q, hq, hqname, s'.value, hmem, hname⟩
  obtain ⟨tree₁, ht₁, q₁, hq₁, hname₁, a', ha', haname⟩ := hrow a ha
  obtain ⟨tree₂, ht₂, q₂, hq₂, hname₂, b', hb', hbname⟩ := hrow b hb
  obtain rfl := (distinct_build l o policy').row_unique ht₁ hq₁ ht₂ hq₂ (hname₁.trans hname₂.symm)
  exact ⟨tree₁, ht₁, q₁, hq₁, a', ha', b', hb', haname, hbname⟩

/-- Under every policy the same nested classes have a simple name, and it is the one chosen. -/
theorem exists_isNamed (l : Library) (o : Options) (n : String) :
    let g := Ground.ofLibrary l o
    ∃ isNamed : Bool, (isNamed = true → ∃ s, firstName? g.entries n = some s) ∧
      ∀ policy, ∀ tree ∈ (build l o policy).1.trees, ∀ r ∈ tree.rows, ∀ c ∈ r.children,
        c.name = n → c.simpleName =
          if isNamed then some ((Census.take g policy).nameOf n) else none := by
  intro g
  obtain ⟨s, hs, hclaim⟩ := ClaimTable.exists_claim?_named g.claims n
  refine ⟨s.any fun c => c.simpleName.isSome, fun hnamed => ?_, ?_⟩
  · cases s with
    | none => cases hnamed
    | some c =>
      obtain ⟨hc, rfl⟩ := hs c rfl
      obtain ⟨simple, hsimple⟩ := Option.isSome_iff_exists.mp hnamed
      obtain ⟨_, _, _, _, hfirst⟩ := Ground.exists_firstName_of_mem_claims hc hsimple
      exact hfirst
  · rintro policy tree ht r hr c hc rfl
    obtain ⟨q, hq, rfl, hparent⟩ := Tree.child_row (ClassTree.mem_rows_iff.mp hr) hc
    obtain ⟨w, hw, hf⟩ := build_eq_ofLinks l o policy
    rw [hf] at ht
    obtain ⟨claim, hsettled, _, hnode⟩ := hw.row_under ht (ClassTree.mem_rows_iff.mpr hq) hparent
    have hname : q.value.simpleName = claim.simpleName := congrArg ClassNode.simpleName hnode
    rw [Census.table_take, hclaim] at hsettled
    obtain ⟨c, rfl, rfl⟩ := Option.map_eq_some_iff.mp hsettled
    rw [hname, Claim.simpleName_named, (hs c rfl).2, Option.any_some]
    cases c.simpleName <;> rfl

/-- A nested class that has a simple name under one policy has one under every other. -/
theorem simpleName_eq_nameOf {policy policy' : Renaming} {t t' : ClassTree}
    (ht : t ∈ (build l o policy).1.trees) (ht' : t' ∈ (build l o policy').1.trees)
    {r r' : Tree.Row ClassNode} (hr : r ∈ t.rows) (hr' : r' ∈ t'.rows) {c c' : ClassNode}
    (hc : c ∈ r.children) (hc' : c' ∈ r'.children) (hsame : c'.name = c.name)
    (hnamed : c.simpleName ≠ none) :
    let g := Ground.ofLibrary l o
    (∃ s, firstName? g.entries c.name = some s) ∧
      c'.simpleName = some ((Census.take g policy').nameOf c.name) := by
  intro g
  obtain ⟨isNamed, hfirst, hname⟩ := exists_isNamed l o c.name
  have hchosen := hname policy t ht r hr c hc rfl
  have hchosen' := hname policy' t' ht' r' hr' c' hc' hsame
  cases hn : isNamed with
  | false => simp [hchosen, hn] at hnamed
  | true => exact ⟨hfirst hn, by rw [hchosen', hn, if_pos rfl]⟩

end Forest

end ClassSketch
