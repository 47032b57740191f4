import ClassSketch.Proofs.RenamedForests

/-! Names of classes that lie side by side. New names are numbered without regard to the names that
are there, so a new name may be that of a sibling. Nothing else gives two siblings one name. -/

namespace ClassSketch

theorem Renaming.numberedName_inj {m n : Nat} : numberedName m = numberedName n ↔ m = n := by
  refine ⟨fun h => ?_, congrArg numberedName⟩
  rw [numberedName, numberedName, String.append_right_inj] at h
  have hdigits : Nat.ofDigitChars 10 m.repr.toList 0 = Nat.ofDigitChars 10 n.repr.toList 0 :=
    congrArg (fun s => Nat.ofDigitChars 10 s.toList 0) h
  rwa [Nat.toList_repr, Nat.toList_repr, Nat.ofDigitChars_ten_toDigits,
    Nat.ofDigitChars_ten_toDigits] at hdigits

/-- Whether the first name that entries give to a class cannot stand. -/
def Ground.renames (g : Ground) (inner : String) : Bool :=
  (firstName? g.entries inner).any fun s => !Renaming.isUsable s

section Numbers

open Renaming

/-- Names with numbers above `k` and up to `n` for classes whose first name cannot stand. -/
structure Census.Numbering (k n : Nat) (first : String → Option String)
    (names : List (String × String)) (number : String → Nat) : Prop where
  le : k ≤ n
  lookup_eq : ∀ i, names.lookup i =
    (first i).map fun s => if isUsable s then s else numberedName (number i)
  range : ∀ i s, first i = some s → isUsable s = false → k < number i ∧ number i ≤ n
  apart : ∀ i s j s', first i = some s → isUsable s = false → first j = some s' →
    isUsable s' = false → number i = number j → i = j

namespace Census.Numbering

variable {k n : Nat} {first : String → Option String} {names : List (String × String)}
  {number : String → Nat} {inner simple : String}

theorem keep (h : Numbering k n first names number) (husable : isUsable simple = true) :
    Numbering k n (Function.update first inner (some simple)) ((inner, simple) :: names) number := by
  have hold : ∀ i s, Function.update first inner (some simple) i = some s → isUsable s = false →
      first i = some s := by
    intro i s hs hnot
    by_cases hi : i = inner
    · rw [hi, Function.update_self] at hs
      cases hs
      rw [husable] at hnot
      cases hnot
    · rwa [Function.update_of_ne hi] at hs
  refine ⟨h.le, fun i => ?_, fun i s hs hnot => h.range i s (hold i s hs hnot) hnot,
    fun i s j s' hs hnot hs' hnot' =>
      h.apart i s j s' (hold i s hs hnot) hnot (hold j s' hs' hnot') hnot'⟩
  rw [lookup_cons_update]
  by_cases hi : i = inner
  · rw [hi, Function.update_self, Function.update_self, Option.map_some, if_pos husable]
  · rw [Function.update_of_ne hi, Function.update_of_ne hi]
    exact h.lookup_eq i

theorem next (h : Numbering k n first names number) (hnot : isUsable simple = false) :
    Numbering k (n + 1) (Function.update first inner (some simple))
      ((inner, numberedName (n + 1)) :: names) (Function.update number inner (n + 1)) := by
  have hbelow : ∀ i s, i ≠ inner → Function.update first inner (some simple) i = some s →
      isUsable s = false → first i = some s ∧ k < number i ∧ number i ≤ n := by
    intro i s hi hs hnot
    rw [Function.update_of_ne hi] at hs
    exact ⟨hs, h.range i s hs hnot⟩
  refine ⟨Nat.le_succ_of_le h.le, fun i => ?_, fun i s hs hnot => ?_, ?_⟩
  · rw [lookup_cons_update]
    by_cases hi : i = inner
    · simp only [hi, Function.update_self, Option.map_some, hnot, Bool.false_eq_true, if_false]
    · simp only [Function.update_of_ne hi]
      exact h.lookup_eq i
  · by_cases hi : i = inner
    · rw [hi, Function.update_self]
      have := h.le
      omega
    · obtain ⟨_, hrange⟩ := hbelow i s hi hs hnot
      rw [Function.update_of_ne hi]
      omega
  · intro i s j s' hs hnot hs' hnot' hsame
    by_cases hi : i = inner <;> by_cases hj : j = inner
    · rw [hi, hj]
    · obtain ⟨_, hrange⟩ := hbelow j s' hj hs' hnot'
      rw [hi, Function.update_self, Function.update_of_ne hj] at hsame
      omega
    · obtain ⟨_, hrange⟩ := hbelow i s hi hs hnot
      rw [hj, Function.update_self, Function.update_of_ne hi] at hsame
      omega
    · rw [Function.update_of_ne hi, Function.update_of_ne hj] at hsame
      exact h.apart i s j s' (hbelow i s hi hs hnot).1 hnot (hbelow j s' hj hs' hnot').1 hnot' hsame

end Census.Numbering

theorem Census.NamesChosen.numbering {k : Nat} {first : String → Option String}
    {names : List (String × String)} {r : Renaming}
    (h : NamesChosen (.numbered k) first names r) :
    ∃ n number, r = .numbered n ∧ Numbering k n first names number := by
  induction h with
  | start => exact ⟨k, fun _ => 0, rfl, Nat.le_refl k, fun _ => rfl, by simp, by simp⟩
  | choose inner simple _ _ ih =>
    obtain ⟨n, number, rfl, hnumbering⟩ := ih
    cases hs : isUsable simple with
    | true =>
      have hrename : rename inner simple (.numbered n) = (simple, .numbered n) := by
        simp [rename, wants, passed, hs]
      rw [hrename]
      exact ⟨n, number, rfl, hnumbering.keep hs⟩
    | false =>
      have hrename : rename inner simple (.numbered n) =
          (numberedName (n + 1), .numbered (n + 1)) := by
        simp [rename, wants, Renaming.next, hs]
      rw [hrename]
      exact ⟨n + 1, _, rfl, hnumbering.next hs⟩

end Numbers

theorem nodup_filterMap_iff {α β : Type} {f : α → Option β} {xs : List α} (h : xs.Nodup) :
    (xs.filterMap f).Nodup ↔
      ∀ a ∈ xs, ∀ b ∈ xs, ∀ s, f a = some s → f b = some s → a = b := by
  rw [List.Nodup, List.pairwise_filterMap]
  constructor
  · intro hp a ha b hb s hfa hfb
    have hsymm : Std.Symm fun a b : α => ∀ s, f a = some s → ∀ s', f b = some s' → s ≠ s' :=
      ⟨fun a b hab s hs s' hs' => (hab s' hs' s hs).symm⟩
    by_contra hne
    exact hp.forall ha hb hne s hfa s hfb rfl
  · intro hinj
    refine h.imp_of_mem fun ha hb hne s hs s' hs' => ?_
    rintro rfl
    exact hne (hinj _ ha _ hb s hs hs')

namespace Forest

/-- Children of a class that have simple names have different ones. -/
def SiblingsApart (f : Forest) : Prop :=
  ∀ t ∈ f.trees, ∀ r ∈ t.rows, (r.children.filterMap (·.simpleName)).Nodup

theorem siblingsApart_iff_all (f : Forest) : f.SiblingsApart ↔
    (f.trees.all fun t => t.rows.all fun r =>
      decide (r.children.filterMap (·.simpleName)).Nodup) = true := by
  simp [SiblingsApart]

variable {l : Library} {o : Options}

theorem siblingsApart_iff (policy : Renaming) : (build l o policy).1.SiblingsApart ↔
    ∀ t ∈ (build l o policy).1.trees, ∀ r ∈ t.rows, ∀ a ∈ r.children, ∀ b ∈ r.children,
      ∀ s, a.simpleName = some s → b.simpleName = some s → a = b := by
  refine forall_congr' fun t => forall_congr' fun ht => forall_congr' fun r =>
    forall_congr' fun hr => nodup_filterMap_iff ?_
  obtain ⟨b, rfl⟩ := build_numbered l o policy t ht
  exact (ClassTree.nodup_nodes_ofTree b).sublist
    (Tree.children_sublist (ClassTree.mem_rows_iff.mp hr))

/-- A nested class that has a name is called by its first name, or by a number of its own if that
cannot stand. -/
theorem exists_numbers (l : Library) (o : Options) (k : Nat) :
    let g := Ground.ofLibrary l o
    ∃ number : String → Nat, (∀ n, g.renames n = true → k < number n) ∧
      (∀ m n, g.renames m = true → g.renames n = true → number m = number n → m = n) ∧
      ∀ t ∈ (build l o (.numbered k)).1.trees, ∀ r ∈ t.rows, ∀ c ∈ r.children, ∀ s,
        c.simpleName = some s → if g.renames c.name then s = Renaming.numberedName (number c.name)
          else firstName? g.entries c.name = some s := by
  intro g
  obtain ⟨last, number, _, hnumbering⟩ := (Census.namesChosen_take g (.numbered k)).numbering
  have hrenames : ∀ n, g.renames n = true →
      ∃ s, firstName? g.entries n = some s ∧ Renaming.isUsable s = false := by
    intro n hn
    cases hs : firstName? g.entries n with
    | none => simp [Ground.renames, hs] at hn
    | some s => exact ⟨s, rfl, by simpa [Ground.renames, hs] using hn⟩
  refine ⟨number, fun n hn => ?_, fun m n hm hn hsame => ?_, fun t ht r hr c hc s hs => ?_⟩
  · obtain ⟨s, hs, hnot⟩ := hrenames n hn
    exact (hnumbering.range n s hs hnot).1
  · obtain ⟨s, hs, hnot⟩ := hrenames m hm
    obtain ⟨s', hs', hnot'⟩ := hrenames n hn
    exact hnumbering.apart m s n s' hs hnot hs' hnot' hsame
  · have hnamed : c.simpleName ≠ none := by simp [hs]
    obtain ⟨⟨first, hfirst⟩, hchosen⟩ := simpleName_eq_nameOf ht ht hr hr hc hc rfl hnamed
    have hfirst : firstName? g.entries c.name = some first := hfirst
    rw [hs, Census.nameOf, hnumbering.lookup_eq, hfirst, Option.map_some, Option.getD_some,
      Option.some.injEq] at hchosen
    cases husable : Renaming.isUsable first <;> simp [Ground.renames, hfirst, husable, hchosen]

/-- A nested class that has a name is called by its first name if names are kept. -/
theorem simpleName_keep {policy : Renaming} {t t' : ClassTree}
    (ht : t ∈ (build l o policy).1.trees) (ht' : t' ∈ (build l o .keep).1.trees)
    {r r' : Tree.Row ClassNode} (hr : r ∈ t.rows) (hr' : r' ∈ t'.rows) {c c' : ClassNode}
    (hc : c ∈ r.children) (hc' : c' ∈ r'.children) (hsame : c'.name = c.name)
    (hnamed : c.simpleName ≠ none) :
    c'.simpleName = firstName? (Ground.ofLibrary l o).entries c.name := by
  obtain ⟨⟨first, hfirst⟩, hchosen⟩ := simpleName_eq_nameOf ht ht' hr hr' hc hc' hsame hnamed
  rw [hchosen, Census.nameOf, (Census.keeping_take _).names, hfirst, Option.getD_some]

/-- Siblings that get one name while they had different ones: a new name is one that was kept. -/
theorem renames_ne_of_siblings (h : (build l o .keep).1.SiblingsApart) {k : Nat} {t : ClassTree}
    (ht : t ∈ (build l o (.numbered k)).1.trees) {r : Tree.Row ClassNode} (hr : r ∈ t.rows)
    {a b : ClassNode} (ha : a ∈ r.children) (hb : b ∈ r.children) {s : String}
    (hsa : a.simpleName = some s) (hsb : b.simpleName = some s) (hne : a ≠ b) :
    (Ground.ofLibrary l o).renames a.name ≠ (Ground.ofLibrary l o).renames b.name := by
  have hname : a.name ≠ b.name := by
    intro hsame
    obtain ⟨q, hq, rfl, _⟩ := Tree.child_row (ClassTree.mem_rows_iff.mp hr) ha
    obtain ⟨q', hq', rfl, _⟩ := Tree.child_row (ClassTree.mem_rows_iff.mp hr) hb
    have hrow := (distinct_build l o (.numbered k)).row_unique ht (ClassTree.mem_rows_iff.mpr hq)
      ht (ClassTree.mem_rows_iff.mpr hq') hsame
    exact hne (congrArg Tree.Row.value hrow)
  obtain ⟨number, _, hapart, hnames⟩ := exists_numbers l o k
  have hcalled := hnames t ht r hr
  intro hsame
  cases hra : (Ground.ofLibrary l o).renames a.name with
  | true =>
    -- both have numbers, and no number is given out twice
    have hrb := hsame.symm.trans hra
    have hna := hcalled a ha s hsa
    have hnb := hcalled b hb s hsb
    rw [if_pos hra] at hna
    rw [if_pos hrb] at hnb
    exact hname (hapart _ _ hra hrb (Renaming.numberedName_inj.mp (hna.symm.trans hnb)))
  | false =>
    -- both keep their first names, which tell them apart where names are kept
    have hrb := hsame.symm.trans hra
    have hna := hcalled a ha s hsa
    have hnb := hcalled b hb s hsb
    simp only [hra, Bool.false_eq_true, if_false] at hna
    simp only [hrb, Bool.false_eq_true, if_false] at hnb
    obtain ⟨t', ht', r', hr', a', ha', b', hb', hna', hnb'⟩ := exists_siblings .keep ht hr ha hb
    have hka := simpleName_keep ht ht' hr hr' ha ha' hna' (by simp [hsa])
    have hkb := simpleName_keep ht ht' hr hr' hb hb' hnb' (by simp [hsb])
    have hab := (siblingsApart_iff .keep).mp h t' ht' r' hr' a' ha' b' hb' s (hka.trans hna)
      (hkb.trans hnb)
    exact hname (hna'.symm.trans ((congrArg ClassNode.name hab).trans hnb'))

/-- No class whose first name cannot stand is called like a sibling that keeps its name. -/
def NoNameTaken (g : Ground) (f : Forest) : Prop :=
  ∀ t ∈ f.trees, ∀ r ∈ t.rows, ∀ a ∈ r.children, ∀ b ∈ r.children,
    g.renames a.name = true → g.renames b.name = false →
      ∀ s, a.simpleName = some s → b.simpleName ≠ some s

theorem siblingsApart_iff_noNameTaken (h : (build l o .keep).1.SiblingsApart) (k : Nat) :
    (build l o (.numbered k)).1.SiblingsApart ↔
      (build l o (.numbered k)).1.NoNameTaken (.ofLibrary l o) := by
  constructor
  · intro hapart t ht r hr a ha b hb hra hrb s hsa hsb
    obtain rfl := (siblingsApart_iff _).mp hapart t ht r hr a ha b hb s hsa hsb
    cases hra.symm.trans hrb
  · intro hfree
    refine (siblingsApart_iff _).mpr fun t ht r hr a ha b hb s hsa hsb => ?_
    by_contra hne
    have hclash := renames_ne_of_siblings h ht hr ha hb hsa hsb hne
    cases hra : (Ground.ofLibrary l o).renames a.name with
    | true =>
      have hrb : (Ground.ofLibrary l o).renames b.name = false := by simpa [hra] using hclash
      exact hfree t ht r hr a ha b hb hra hrb s hsa hsb
    | false =>
      have hrb : (Ground.ofLibrary l o).renames b.name = true := by simpa [hra] using hclash
      exact hfree t ht r hr b hb a ha hrb hra s hsb hsa

/-- A kept name comes from an entry. -/
theorem noNameTaken_of_entries {k : Nat} (h : ∀ e ∈ (Ground.ofLibrary l o).entries, ∀ n, k < n →
      e.simpleName ≠ some (Renaming.numberedName n)) :
    (build l o (.numbered k)).1.NoNameTaken (.ofLibrary l o) := by
  intro t ht r hr a ha b hb hra hrb s hsa hsb
  obtain ⟨number, hrange, _, hnames⟩ := exists_numbers l o k
  have hnew := hnames t ht r hr a ha s hsa
  have hkept := hnames t ht r hr b hb s hsb
  rw [if_pos hra] at hnew
  simp only [hrb, Bool.false_eq_true, if_false] at hkept
  obtain ⟨e, he, _, hsimple⟩ := exists_entry_of_firstName? hkept
  exact h e he _ (hrange _ hra) (hnew ▸ hsimple)

/-- Where names that are kept tell siblings apart, numbering the ones that cannot stand tells them
apart too, unless a class gets the name that a sibling kept. It never does if no entry gives a name
with a number that may be given out. -/
theorem siblings_apart_unless_taken (l : Library) (o : Options) (k : Nat)
    (h : (build l o .keep).1.SiblingsApart) :
    let g := Ground.ofLibrary l o
    let f := (build l o (.numbered k)).1
    (f.SiblingsApart ↔ f.NoNameTaken g) ∧
      ((∀ e ∈ g.entries, ∀ n, k < n → e.simpleName ≠ some (Renaming.numberedName n)) →
        f.SiblingsApart) := by
  intro g f
  have hiff : f.SiblingsApart ↔ f.NoNameTaken g := siblingsApart_iff_noNameTaken h k
  exact ⟨hiff, fun hentries => hiff.mpr (noNameTaken_of_entries hentries)⟩

/-- Two members called by reserved words and one whose name can stand. -/
def reservedSiblings : Library :=
  .ofList [
    { name := "a/O", access := .publicFlag
      nesting := some [{ inner := "a/O$B", outer := some "a/O", simpleName := some "B" },
        { inner := "a/O$for", outer := some "a/O", simpleName := some "for" },
        { inner := "a/O$if", outer := some "a/O", simpleName := some "if" }] },
    { name := "a/O$B" }, { name := "a/O$for" }, { name := "a/O$if" }]

theorem reservedSiblings_apart :
    let g := Ground.ofLibrary reservedSiblings {}
    (build reservedSiblings {} .keep).1.SiblingsApart ∧
      (∀ e ∈ g.entries, ∀ n, 0 < n → e.simpleName ≠ some (Renaming.numberedName n)) ∧
      g.renames "a/O$for" = true ∧ g.renames "a/O$if" = true ∧
      (build reservedSiblings {} (.numbered 0)).1.SiblingsApart := by
  intro g
  have hkept : (build reservedSiblings {} .keep).1.SiblingsApart :=
    by
    rw [siblingsApart_iff_all]
    simp only [build, ofLinks, Ground.nest, Ground.unclaimed, ClassTree.rows,
      sortByKey_eq_insertionSort]
    decide +kernel
  have hentries : ∀ e ∈ g.entries, ∀ n, 0 < n → e.simpleName ≠ some (Renaming.numberedName n) := by
    have hheads : ∀ e ∈ g.entries, ∀ s ∈ e.simpleName, s.toList.head? ≠ some 'c' := by decide
    intro e he n _ hname
    exact hheads e he _ hname (by simp [Renaming.numberedName])
  exact ⟨hkept, hentries, by decide, by decide,
    (siblings_apart_unless_taken reservedSiblings {} 0 hkept).2 hentries⟩

/-- Siblings that have names get one name if one was chosen for both. -/
theorem not_siblingsApart_of_nameOf {policy policy' : Renaming} {t : ClassTree}
    (ht : t ∈ (build l o policy).1.trees) {r : Tree.Row ClassNode} (hr : r ∈ t.rows)
    {a b : ClassNode} (ha : a ∈ r.children) (hb : b ∈ r.children) (hna : a.simpleName ≠ none)
    (hnb : b.simpleName ≠ none) (hne : a.name ≠ b.name)
    (hsame : (Census.take (.ofLibrary l o) policy').nameOf a.name =
      (Census.take (.ofLibrary l o) policy').nameOf b.name) :
    ¬ (build l o policy').1.SiblingsApart := by
  intro hapart
  obtain ⟨t', ht', r', hr', a', ha', b', hb', haname, hbname⟩ := exists_siblings policy' ht hr ha hb
  have hca := (simpleName_eq_nameOf ht ht' hr hr' ha ha' haname hna).2
  have hcb := (simpleName_eq_nameOf ht ht' hr hr' hb hb' hbname hnb).2
  rw [← hsame] at hcb
  have hab := (siblingsApart_iff policy').mp hapart t' ht' r' hr' a' ha' b' hb' _ hca hcb
  exact hne (haname.symm.trans ((congrArg ClassNode.name hab).trans hbname))

/-- A member called by a reserved word, beside one that has the first name to be given out. -/
def takenName : Library :=
  .ofList [
    { name := "a/O", access := .publicFlag
      nesting := some
        [{ inner := "a/O$if", outer := some "a/O", simpleName := some "if", access := .publicFlag },
          { inner := "a/O$class_1", outer := some "a/O", simpleName := some "class_1"
            access := .publicFlag }] },
    { name := "a/O$if", access := .publicFlag }, { name := "a/O$class_1", access := .publicFlag }]

/-- Entries agree and siblings have different names, and both siblings get one name. -/
theorem takenName_given_out :
    (Ground.ofLibrary takenName {}).Agrees ∧ (build takenName {} .keep).1.SiblingsApart ∧
      ¬ (build takenName {} (.numbered 0)).1.SiblingsApart := by
  have hagree : EntriesAgree {} takenName.classes := by decide
  have hkept : (build takenName {} .keep).1.SiblingsApart :=
    by
    rw [siblingsApart_iff_all]
    simp only [build, ofLinks, Ground.nest, Ground.unclaimed, ClassTree.rows,
      sortByKey_eq_insertionSort]
    decide +kernel
  have hrow : ((build takenName {} .keep).1.trees.any fun t => t.rows.any fun r =>
      r.children.map (fun c => (c.name, c.simpleName)) ==
        [("a/O$class_1", some "class_1"), ("a/O$if", some "if")]) = true := by
    simp only [build, ofLinks, Ground.nest, Ground.unclaimed, ClassTree.rows,
      sortByKey_eq_insertionSort]
    decide +kernel
  obtain ⟨t, ht, hrow⟩ := List.any_eq_true.mp hrow
  obtain ⟨r, hr, hchildren⟩ := List.any_eq_true.mp hrow
  rw [beq_iff_eq] at hchildren
  have hmem : ∀ p ∈ r.children.map fun c => (c.name, c.simpleName),
      ∃ c ∈ r.children, c.name = p.1 ∧ c.simpleName = p.2 := by
    rintro p hp
    obtain ⟨c, hc, rfl⟩ := List.mem_map.mp hp
    exact ⟨c, hc, rfl, rfl⟩
  rw [hchildren] at hmem
  obtain ⟨a, ha, haname, hasimple⟩ := hmem _ List.mem_cons_self
  obtain ⟨b, hb, hbname, hbsimple⟩ := hmem _ (List.mem_cons_of_mem _ List.mem_cons_self)
  refine ⟨hagree.agrees fun _ hc => hc, hkept, ?_⟩
  refine not_siblingsApart_of_nameOf ht hr ha hb (by simp [hasimple]) (by simp [hbsimple]) ?_ ?_
  · rw [haname, hbname]
    decide
  · rw [haname, hbname]
    decide +kernel

end Forest

end ClassSketch
