import ClassSketch.Nesting.Outline
import ClassSketch.Proofs.ClaimRuns
import ClassSketch.Proofs.Walks

/-! The order in which classes are loaded. Where the entries of all classes agree and nothing is
renamed, every class makes the same claims in every order, and what the walks read of the table
depends only on which claims there are. So the whole forest is the same. -/

namespace ClassSketch

section Sorting

theorem pairwise_insertSorted (k : String) {ns : List String} (h : ns.Pairwise (· < ·)) :
    (insertSorted k ns).Pairwise (· < ·) := by
  induction ns with
  | nil => simp [insertSorted]
  | cons n ns ih =>
    obtain ⟨hn, hns⟩ := List.pairwise_cons.mp h
    by_cases hlt : k < n
    · simp only [insertSorted, hlt, if_true]
      refine List.pairwise_cons.mpr ⟨fun m hm => ?_, h⟩
      rcases List.mem_cons.mp hm with rfl | hm
      · exact hlt
      · exact String.lt_trans hlt (hn m hm)
    · by_cases he : k = n
      · simpa [insertSorted, he] using h
      · have hgt : n < k := by
          rcases String.le_total k n with hle | hle
          · exact absurd (String.le_antisymm hle (String.not_lt.mp hlt)) he
          · rw [← String.not_le]
            exact fun hkn => he (String.le_antisymm hkn hle)
        simp only [insertSorted, hlt, he, if_false]
        refine List.pairwise_cons.mpr ⟨fun m hm => ?_, ih hns⟩
        rcases ClaimTable.mem_insertSorted.mp hm with rfl | hm
        · exact hgt
        · exact hn m hm

theorem pairwise_sortedNames (ns : List String) :
    (ClaimTable.sortedNames ns).Pairwise (· < ·) :=
  List.foldlRecOn (motive := fun ms : List String => ms.Pairwise (· < ·)) _ _ List.Pairwise.nil
    fun _ h n _ => pairwise_insertSorted n h

/-- Sorted names depend only on which names there are. -/
theorem sortedNames_congr {ns ms : List String} (h : ∀ n, n ∈ ns ↔ n ∈ ms) :
    ClaimTable.sortedNames ns = ClaimTable.sortedNames ms := by
  have hnodup : ∀ ks : List String, (ClaimTable.sortedNames ks).Nodup := by
    intro ks
    refine (pairwise_sortedNames ks).imp ?_
    rintro a b hlt rfl
    exact String.lt_irrefl a hlt
  refine List.Perm.eq_of_pairwise ?_ (pairwise_sortedNames ns) (pairwise_sortedNames ms) ?_
  · exact fun a b _ _ hab hba => absurd hba (String.lt_asymm hab)
  · rw [List.perm_ext_iff_of_nodup (hnodup ns) (hnodup ms)]
    intro n
    rw [ClaimTable.mem_sortedNames, ClaimTable.mem_sortedNames, h]

end Sorting

theorem find?_name_eq_of_perm {cs ds : List ClassDecl} (h : cs.Perm ds)
    (hnd : (cs.map (·.name)).Nodup) (n : String) :
    cs.find? (fun c => c.name == n) = ds.find? fun c => c.name == n := by
  have hnd' : (ds.map (·.name)).Nodup := (h.map _).nodup_iff.mp hnd
  apply Option.ext
  intro d
  rw [find?_name_eq_some_iff hnd, find?_name_eq_some_iff hnd', h.mem_iff]

namespace Library

theorem put_of_fresh {c : ClassDecl} {ds : List ClassDecl} (h : c.name ∉ ds.map (·.name)) :
    put c ds = ds ++ [c] := by
  induction ds with
  | nil => rfl
  | cons d ds ih =>
    rw [List.map_cons, List.mem_cons, not_or] at h
    simp [put, Ne.symm h.1, ih h.2]

theorem ofList_concat (cs : List ClassDecl) (c : ClassDecl) :
    ofList (cs ++ [c]) = (ofList cs).insert c := by
  simp [ofList, List.foldl_append]

theorem classes_ofList {cs : List ClassDecl} (h : (cs.map (·.name)).Nodup) :
    (ofList cs).classes = cs := by
  induction cs using List.reverseRecOn with
  | nil => rfl
  | append_singleton cs c ih =>
    rw [List.map_append, List.map_singleton, List.nodup_append] at h
    obtain ⟨hcs, _, hfresh⟩ := h
    have hc : c.name ∉ cs.map (·.name) := fun hm => hfresh _ hm _ (List.mem_singleton_self _) rfl
    calc (ofList (cs ++ [c])).classes
        _ = put c (ofList cs).classes := by rw [ofList_concat]; rfl
        _ = cs ++ [c] := by rw [ih hcs, put_of_fresh hc]

theorem mode_ofList (cs : List ClassDecl) : (ofList cs).mode = .pooled :=
  List.foldlRecOn (motive := fun l : Library => l.mode = .pooled) _ _ rfl fun _ h _ _ => h

end Library

namespace Ground

/-- The same classes in another order, from libraries that hold the same classes. -/
structure Reordered (g g' : Ground) : Prop where
  classes : g.classes.Perm g'.classes
  known : g.library.classes.Perm g'.library.classes
  mode : g.library.mode = g'.library.mode
  options : g.options = g'.options

theorem reordered_ofLibrary {l l' : Library} (h : l.classes.Perm l'.classes)
    (hmode : l.mode = l'.mode) (o : Options) : (ofLibrary l o).Reordered (ofLibrary l' o) :=
  ⟨(h.filter _).filter _, h, hmode, rfl⟩

variable {g g' : Ground}

theorem Reordered.find? (h : g.Reordered g') (n : String) : g.find? n = g'.find? n :=
  find?_name_eq_of_perm h.classes g.distinct n

theorem Reordered.entryKind (h : g.Reordered g') (e : NestingEntry) :
    g.entryKind e = g'.entryKind e := by
  have hfind : g.library.find? e.inner = g'.library.find? e.inner :=
    find?_name_eq_of_perm h.known g.library.distinct e.inner
  rw [Ground.entryKind, Ground.entryKind, hfind]

theorem Reordered.objection? (h : g.Reordered g') (child parent : ClassDecl) :
    Anonymity.objection? g.library child parent = Anonymity.objection? g'.library child parent := by
  have hcode : g.library.code = g'.library.code := by
    funext c m
    rw [Library.code, Library.code, h.mode]
  rw [Anonymity.objection?, Anonymity.objection?, hcode]

end Ground

section Claims

namespace Claim

/-- What a claim says about its class, wherever it puts it and whoever makes it. -/
def description (c : Claim) : Option String × Option String × NestKind × AccessFlags :=
  (c.simpleName, c.renamedFrom, c.kind, c.access)

end Claim

namespace ClaimTable

/-- Tables between which the walks see no difference. -/
structure Alike (t t' : ClaimTable) : Prop where
  nested : ∀ p, t.nestedIn p = t'.nestedIn p
  enclosers : ∀ n, t.enclosersOf n = t'.enclosersOf n
  described : ∀ n, (t.claim? n).map Claim.description = (t'.claim? n).map Claim.description

theorem Alike.isClaimed {t t' : ClaimTable} (h : t.Alike t') (n : String) :
    t.isClaimed n = t'.isClaimed n := by
  have hn := congrArg Option.isSome (h.described n)
  rwa [Option.isSome_map, Option.isSome_map] at hn

/-- The nesting that was claimed depends only on which pairs there are. -/
theorem nestedIn_congr {t t' : ClaimTable} (h : ∀ e i, (e, i) ∈ t.edges ↔ (e, i) ∈ t'.edges)
    (p : String) : t.nestedIn p = t'.nestedIn p := by
  apply sortedNames_congr
  intro i
  refine mem_sortedNames.symm.trans (.trans ?_ mem_sortedNames)
  exact mem_nestedIn.trans ((h p i).trans mem_nestedIn.symm)

theorem enclosersOf_congr {t t' : ClaimTable} (h : ∀ e i, (e, i) ∈ t.edges ↔ (e, i) ∈ t'.edges)
    (n : String) : t.enclosersOf n = t'.enclosersOf n := by
  apply sortedNames_congr
  intro e
  refine mem_sortedNames.symm.trans (.trans ?_ mem_sortedNames)
  exact mem_enclosersOf.trans ((h e n).trans mem_enclosersOf.symm)

theorem alike_of_perm {cs ds : List Claim} (h : cs.Perm ds)
    (hagree : ∀ c ∈ cs, ∀ d ∈ cs, c.inner = d.inner → c.description = d.description) :
    (ofClaims cs).Alike (ofClaims ds) := by
  have hedges : ∀ e i, (e, i) ∈ (ofClaims cs).edges ↔ (e, i) ∈ (ofClaims ds).edges := by
    intro e i
    simp only [mem_edges_ofClaims, h.mem_iff]
  refine ⟨nestedIn_congr hedges, enclosersOf_congr hedges, fun n => ?_⟩
  have hclaimed : (ofClaims cs).isClaimed n = true ↔ (ofClaims ds).isClaimed n = true := by
    simp only [isClaimed_ofClaims, h.mem_iff]
  cases hc : (ofClaims cs).claim? n with
  | none =>
    cases hd : (ofClaims ds).claim? n with
    | none => rfl
    | some d => simp [isClaimed, hc, hd] at hclaimed
  | some c =>
    cases hd : (ofClaims ds).claim? n with
    | none => simp [isClaimed, hc, hd] at hclaimed
    | some d =>
      obtain ⟨hcm, hcn⟩ := claim?_mem hc
      obtain ⟨hdm, hdn⟩ := claim?_mem hd
      have hdesc := hagree c hcm d (h.mem_iff.mpr hdm) (hcn.trans hdn.symm)
      simp [hdesc]

end ClaimTable

namespace Ground

def entries (g : Ground) : List NestingEntry := g.classes.flatMap (·.nestingEntries)

/-- Entries about the same class say the same. -/
def Agrees (g : Ground) : Prop :=
  ∀ e ∈ g.entries, ∀ e' ∈ g.entries, e.inner = e'.inner →
    e.simpleName = e'.simpleName ∧ e.outer = e'.outer ∧ e.access = e'.access

/-- The claim that an entry makes when nothing is renamed. -/
def claimOf? (g : Ground) (source : String) (e : NestingEntry) : Option Claim :=
  let enclosing := e.outer.getD source
  if e.inner == enclosing || !fits e enclosing (g.entryKind e) || (g.find? enclosing).isNone then
    none
  else some
    { inner := e.inner, enclosing, kind := g.entryKind e, source, access := e.access
      simpleName := e.simpleName }

def claims (g : Ground) : List Claim :=
  g.classes.flatMap fun d => d.nestingEntries.filterMap (g.claimOf? d.name)

theorem mem_entries {g : Ground} {d : ClassDecl} (hd : d ∈ g.classes) {e : NestingEntry}
    (he : e ∈ d.nestingEntries) : e ∈ g.entries :=
  List.mem_flatMap.mpr ⟨d, hd, he⟩

theorem exists_entry_of_mem_claims {g : Ground} {c : Claim} (hc : c ∈ g.claims) :
    ∃ e ∈ g.entries, c.inner = e.inner ∧
      c.description = (e.simpleName, none, g.entryKind e, e.access) := by
  obtain ⟨d, hd, hc⟩ := List.mem_flatMap.mp hc
  obtain ⟨e, he, hclaim⟩ := List.mem_filterMap.mp hc
  refine ⟨e, mem_entries hd he, ?_⟩
  simp only [claimOf?] at hclaim
  split at hclaim
  · cases hclaim
  · obtain rfl := Option.some.inj hclaim
    exact ⟨rfl, rfl⟩

theorem Agrees.description_eq {g : Ground} (h : g.Agrees) {c d : Claim} (hc : c ∈ g.claims)
    (hd : d ∈ g.claims) (hinner : c.inner = d.inner) : c.description = d.description := by
  obtain ⟨e, he, hce, hcd⟩ := exists_entry_of_mem_claims hc
  obtain ⟨e', he', hde, hdd⟩ := exists_entry_of_mem_claims hd
  have heq : e.inner = e'.inner := hce.symm.trans (hinner.trans hde)
  obtain ⟨hs, ho, ha⟩ := h e he e' he' heq
  have hkind : g.entryKind e = g.entryKind e' := by
    rw [entryKind, entryKind, heq, hs, ho]
  rw [hcd, hdd, hs, hkind, ha]

theorem Reordered.claims {g g' : Ground} (h : g.Reordered g') : g.claims.Perm g'.claims := by
  have hclaim : ∀ source e, g.claimOf? source e = g'.claimOf? source e := by
    intro source e
    simp only [claimOf?, h.find?, h.entryKind]
  have hfun : (fun d : ClassDecl => d.nestingEntries.filterMap (g.claimOf? d.name)) =
      fun d => d.nestingEntries.filterMap (g'.claimOf? d.name) := by
    funext d
    exact congrArg (d.nestingEntries.filterMap ·) (funext (hclaim d.name))
  rw [Ground.claims, Ground.claims, hfun]
  exact h.classes.flatMap_right _

end Ground

namespace Census

/-- A census in which nothing was renamed so far: each name that was chosen is the one that all
entries give, and the table holds the claims `cs`. -/
structure Plain (g : Ground) (c : Census) (cs : List Claim) : Prop where
  policy : c.policy = .keep
  names : ∀ inner name, c.names.lookup inner = some name →
    ∀ e ∈ g.entries, e.inner = inner → e.simpleName = some name
  table : c.table = ClaimTable.ofClaims cs

theorem Plain.chooseName {g : Ground} (hg : g.Agrees) {c : Census} {cs : List Claim}
    (h : c.Plain g cs) {e : NestingEntry} (he : e ∈ g.entries) {simple : String}
    (hs : e.simpleName = some simple) :
    (c.chooseName e.inner simple).1 = simple ∧ (c.chooseName e.inner simple).2.Plain g cs := by
  cases hl : c.names.lookup e.inner with
  | some name =>
    have hname : name = simple := Option.some.inj ((h.names _ _ hl e he rfl).symm.trans hs)
    simp only [Census.chooseName, hl]
    exact ⟨hname, h⟩
  | none =>
    simp only [Census.chooseName, hl, h.policy, Renaming.rename, Renaming.wants, Renaming.passed]
    refine ⟨rfl, rfl, fun inner name hlook e' he' hinner => ?_, h.table⟩
    by_cases hi : inner = e.inner
    · have hname : name = simple := by simpa [List.lookup_cons, hi] using hlook.symm
      rw [hname, ← hs]
      exact (hg e' he' e he (hinner.trans hi)).1
    · have hb : (inner == e.inner) = false := by simpa using hi
      rw [List.lookup_cons, hb] at hlook
      exact h.names inner name hlook e' he' hinner

theorem Plain.readEntry {g : Ground} (hg : g.Agrees) {c : Census} {cs : List Claim}
    (h : c.Plain g cs) (source : String) {e : NestingEntry} (he : e ∈ g.entries) :
    (readEntry g source c e).Plain g (cs ++ (g.claimOf? source e).toList) := by
  have hadd : ∀ {c : Census}, c.Plain g cs → (if e.inner == e.outer.getD source ||
        !Ground.fits e (e.outer.getD source) (g.entryKind e) ||
        (g.find? (e.outer.getD source)).isNone then c
      else c.add g.options.warnInconsistent
        { inner := e.inner, enclosing := e.outer.getD source, kind := g.entryKind e, source
          access := e.access, simpleName := e.simpleName }).Plain g
        (cs ++ (g.claimOf? source e).toList) := by
    intro c h
    simp only [Ground.claimOf?]
    split
    · simpa using h
    · exact ⟨h.policy, h.names, by
        rw [Option.toList_some, ClaimTable.ofClaims_concat, ← h.table, add]⟩
  cases hs : e.simpleName with
  | none =>
    rw [hs] at hadd
    simpa [Census.readEntry, hs] using hadd h
  | some simple =>
    obtain ⟨hname, hplain⟩ := h.chooseName hg he hs
    rw [hs] at hadd
    simpa [Census.readEntry, hs, hname] using hadd hplain

theorem plain_take {g : Ground} (hg : g.Agrees) : (take g .keep).Plain g g.claims := by
  have hentries : ∀ (d : ClassDecl) (es : List NestingEntry) (c : Census) (cs : List Claim),
      (∀ e ∈ es, e ∈ g.entries) → c.Plain g cs →
        (es.foldl (Census.readEntry g d.name) c).Plain g
          (cs ++ es.filterMap (g.claimOf? d.name)) := by
    intro d es
    induction es with
    | nil => intro c cs _ h; simpa using h
    | cons e es ih =>
      intro c cs hes h
      have hstep := h.readEntry hg d.name (hes e List.mem_cons_self)
      have hrest := ih _ _ (fun e he => hes e (List.mem_cons_of_mem _ he)) hstep
      cases hc : g.claimOf? d.name e <;> simpa [hc, List.filterMap_cons] using hrest
  have hclasses : ∀ (ds : List ClassDecl) (c : Census) (cs : List Claim),
      (∀ d ∈ ds, d ∈ g.classes) → c.Plain g cs →
        (ds.foldl (readClass g) c).Plain g
          (cs ++ ds.flatMap fun d => d.nestingEntries.filterMap (g.claimOf? d.name)) := by
    intro ds
    induction ds with
    | nil => intro c cs _ h; simpa using h
    | cons d ds ih =>
      intro c cs hds h
      have hd := hds d List.mem_cons_self
      have hstep := hentries d d.nestingEntries c cs (fun e he => Ground.mem_entries hd he) h
      have hrest := ih _ _ (fun d hd => hds d (List.mem_cons_of_mem _ hd)) hstep
      simpa [readClass, List.append_assoc] using hrest
  have hstart : ({ policy := .keep } : Census).Plain g [] := ⟨rfl, by simp, rfl⟩
  simpa [take, Ground.claims] using hclasses g.classes _ [] (fun _ hd => hd) hstart

theorem alike_take {g g' : Ground} (h : g.Reordered g') (hg : g.Agrees) (hg' : g'.Agrees) :
    (take g .keep).table.Alike (take g' .keep).table := by
  rw [(plain_take hg).table, (plain_take hg').table]
  exact ClaimTable.alike_of_perm h.claims fun c hc d hd => hg.description_eq hc hd

end Census

end Claims

section Walks

variable {g g' : Ground} {t t' : ClaimTable}

theorem Walk.place_congr (hg : g.Reordered g') (ht : t.Alike t') (parent child : ClassDecl)
    {claim claim' : Claim} (hc : claim.description = claim'.description) (w : Walk) :
    w.place g t parent child claim = w.place g' t' parent child claim' := by
  simp only [Claim.description, Prod.mk.injEq] at hc
  obtain ⟨hs, hr, hk, ha⟩ := hc
  simp only [Walk.place, ClassNode.ofClaim, hs, hr, hk, ha, hg.options, hg.objection?,
    ht.enclosers]

theorem Walk.visitEntry_congr (hg : g.Reordered g') (ht : t.Alike t') (parent : ClassDecl)
    (nested : List String) (w : Walk) (e : NestingEntry) :
    w.visitEntry g t parent nested e = w.visitEntry g' t' parent nested e := by
  simp only [Walk.visitEntry, hg.find?]
  cases g'.find? e.inner with
  | none => rfl
  | some child =>
    have hdesc := ht.described child.name
    cases hc : t.claim? child.name with
    | none =>
      rw [hc, Option.map_none, eq_comm, Option.map_eq_none_iff] at hdesc
      simp only [hc, hdesc]
    | some claim =>
      rw [hc, Option.map_some, eq_comm, Option.map_eq_some_iff] at hdesc
      obtain ⟨claim', hc', heq⟩ := hdesc
      simp only [hc, hc', Walk.place_congr hg ht parent child heq.symm]

theorem Walk.visit_congr (hg : g.Reordered g') (ht : t.Alike t') (w : Walk) (n : String) :
    w.visit g t n = w.visit g' t' n := by
  have hentry : ∀ parent nested, Walk.visitEntry g t parent nested =
      Walk.visitEntry g' t' parent nested := by
    intro parent nested
    funext w e
    exact Walk.visitEntry_congr hg ht parent nested w e
  simp only [Walk.visit, hg.find?, ht.nested, hentry]

theorem Walk.run_congr (hg : g.Reordered g') (ht : t.Alike t') (k : Nat) (w : Walk) :
    w.run g t k = w.run g' t' k := by
  induction k generalizing w with
  | zero => rfl
  | succ k ih =>
    cases hq : w.queue with
    | nil => simp [Walk.run, hq]
    | cons n queue => simp only [Walk.run, hq, Walk.visit_congr hg ht, ih]

/-- The walks are the same, link for link. -/
theorem Ground.nest_congr (hg : g.Reordered g') (ht : t.Alike t') : g.nest t = g'.nest t' := by
  have hroots : g.unclaimed t = g'.unclaimed t' := by
    simp only [Ground.unclaimed, ht.isClaimed]
    apply sortByKey_eq_of_perm ((hg.classes.map _).filter _)
    rw [List.map_id]
    exact g.distinct.filter _
  have hwalk : Walk.fromRoot g t = Walk.fromRoot g' t' := by
    funext w root
    rw [Walk.fromRoot, Walk.fromRoot, hg.classes.length_eq, Walk.run_congr hg ht]
  rw [Ground.nest, Ground.nest, hroots, hwalk]

end Walks

namespace Forest

theorem ofLinks_eq_of_perm {classes classes' : List ClassDecl} (h : classes.Perm classes')
    (hnd : (classes.map (·.name)).Nodup) (links : List Link) :
    ofLinks classes links = ofLinks classes' links := by
  rw [ofLinks_eq, ofLinks_eq, grown_eq_map, grown_eq_map]
  congr 2
  apply sortByKey_eq_of_perm ((h.filter _).map _)
  rw [List.map_map]
  have hkey : ((fun t : Tree ClassNode => t.value.name) ∘
      fun c => growTree links (.leaf (.ofDecl c))) = fun c : ClassDecl => c.name := by
    funext c
    simp only [Function.comp_apply, value_growTree]
    rfl
  rw [hkey]
  exact hnd.sublist (List.filter_sublist.map _)

theorem build_eq_of_perm {l l' : Library} (h : l.classes.Perm l'.classes) (hmode : l.mode = l'.mode)
    {o : Options} (hl : (Ground.ofLibrary l o).Agrees) (hl' : (Ground.ofLibrary l' o).Agrees) :
    (build l o .keep).1 = (build l' o .keep).1 := by
  have hg := Ground.reordered_ofLibrary h hmode o
  have hlinks := ofLinks_eq_of_perm hg.classes (Ground.ofLibrary l o).distinct
  have hnest := Ground.nest_congr hg (Census.alike_take hg hl hl')
  by_cases ho : o.nest = true
  · rw [build, build, if_pos ho, if_pos ho]
    dsimp only
    rw [hnest]
    exact hlinks _
  · rw [build, build, if_neg ho, if_neg ho]
    exact hlinks []

theorem tree?_isSome_of_mem_roots {f : Forest} {r : String} (h : r ∈ f.roots) :
    ∃ t, f.tree? r = some t := by
  obtain ⟨t, ht, rfl⟩ := List.mem_map.mp h
  apply Option.isSome_iff_exists.mp
  rw [tree?, List.find?_isSome]
  exact ⟨t, ht, by simp⟩

/-- Any two entries of own allowed classes about the same class give it the same simple name, outer
class and flags. -/
def EntriesAgree (o : Options) (cs : List ClassDecl) : Prop :=
  ∀ c ∈ cs, ∀ d ∈ cs, c.own && o.allows c.name → d.own && o.allows d.name →
    ∀ e ∈ c.nestingEntries, ∀ e' ∈ d.nestingEntries, e.inner = e'.inner →
      e.simpleName = e'.simpleName ∧ e.outer = e'.outer ∧ e.access = e'.access

instance (o : Options) (cs : List ClassDecl) : Decidable (EntriesAgree o cs) :=
  inferInstanceAs (Decidable (∀ c ∈ cs, ∀ d ∈ cs, c.own && o.allows c.name → _))

theorem EntriesAgree.agrees {o : Options} {cs : List ClassDecl} (h : EntriesAgree o cs)
    {l : Library} (hl : ∀ c ∈ l.classes, c ∈ cs) : (Ground.ofLibrary l o).Agrees := by
  have hmem : ∀ c ∈ (Ground.ofLibrary l o).classes, c ∈ cs ∧ (c.own && o.allows c.name) = true := by
    intro c hc
    obtain ⟨hown, hallowed⟩ := List.mem_filter.mp hc
    obtain ⟨hc, hown⟩ := List.mem_filter.mp hown
    exact ⟨hl c hc, by simp [hown, hallowed]⟩
  intro e he e' he' hinner
  obtain ⟨c, hc, hce⟩ := List.mem_flatMap.mp he
  obtain ⟨d, hd, hde⟩ := List.mem_flatMap.mp he'
  obtain ⟨hc, hc'⟩ := hmem c hc
  obtain ⟨hd, hd'⟩ := hmem d hd
  exact h c hc d hd hc' hd' e hce e' hde hinner

/-- Classes of distinct names whose entries agree give the same forest in whatever order they are
loaded: the same roots, and for each root a tree with the same outline. -/
theorem load_order_immaterial (o : Options) {cs ds : List ClassDecl} (hperm : ds.Perm cs)
    (hnames : (cs.map (·.name)).Nodup) (hagree : EntriesAgree o cs) :
    let f := (build (.ofList cs) o .keep).1
    let f' := (build (.ofList ds) o .keep).1
    f'.roots = f.roots ∧ ∀ r ∈ f.roots, ∃ t t', f.tree? r = some t ∧ f'.tree? r = some t' ∧
      t'.outline = t.outline := by
  intro f f'
  have hnames' : (ds.map (·.name)).Nodup := (hperm.map _).nodup_iff.mpr hnames
  have hcs := Library.classes_ofList hnames
  have hds := Library.classes_ofList hnames'
  have hf : f' = f := by
    refine build_eq_of_perm ?_ ?_ ?_ ?_
    · rw [hcs, hds]
      exact hperm
    · rw [Library.mode_ofList, Library.mode_ofList]
    · exact hagree.agrees fun c hc => hperm.mem_iff.mp (hds ▸ hc)
    · exact hagree.agrees fun c hc => hcs ▸ hc
  rw [hf]
  refine ⟨rfl, fun r hr => ?_⟩
  obtain ⟨t, ht⟩ := tree?_isSome_of_mem_roots hr
  exact ⟨t, t, ht, ht, rfl⟩

/-- A class with a member and an anonymous class, both of which repeat its entries, and a class of
its own. -/
def household : List ClassDecl :=
  let entries : List NestingEntry :=
    [{ inner := "a/A$1" }, { inner := "a/A$M", outer := some "a/A", simpleName := some "M" }]
  [{ name := "b/B" }, { name := "a/A$M", nesting := some entries },
    { name := "a/A", nesting := some entries }, { name := "a/A$1", nesting := some entries }]

theorem load_order_immaterial_household :
    household.reverse.map (·.name) ≠ household.map (·.name) ∧ EntriesAgree {} household ∧
      ∃ t t', (build (.ofList household) {} .keep).1.tree? "a/A" = some t ∧
        (build (.ofList household.reverse) {} .keep).1.tree? "a/A" = some t' ∧
          t'.outline = t.outline := by
  have hagree : EntriesAgree {} household := by decide
  have hroots : (build (.ofList household) {} .keep).1.roots = ["a/A", "b/B"] := by
    simp only [build, ofLinks, Ground.nest, Ground.unclaimed, sortByKey_eq_insertionSort]
    decide +kernel
  exact ⟨by decide, hagree, (load_order_immaterial {} household.reverse_perm (by decide) hagree).2
    "a/A" (hroots ▸ List.mem_cons_self)⟩

end Forest

end ClassSketch
