import ClassSketch.Proofs.Alphabet
import ClassSketch.Proofs.SketchParts
import ClassSketch.Render.Prepared
import ClassSketch.Session
import ClassSketch.Sketch.Field
import Mathlib.Data.List.Basic
import Mathlib.Data.List.TakeWhile

/-! Enum constants among the fields. Fields are written in their order, and what stands after one
depends on the next: so each run of constants is a group of its own, with commas inside and a
semicolon at its end. All constants are one group at the start just if no other field comes before
a constant. -/

namespace ClassSketch

open Text (Within)

namespace FieldSketch

variable {σ : Type}

/-- A field as it stands in a text, without what divides it from the next one. -/
structure Item where
  isConstant : Bool
  text : String

section Layout

variable (l : Text.Layout)

/-- What stands between a field and those that follow. -/
def divider (constant : Bool) : List Item → String
  | [] => if constant then ";" ++ l.separator else ""
  | i :: _ =>
    if constant then
      if i.isConstant then "," ++ l.separator else ";" ++ l.separator ++ l.separator
    else ""

def laidOut : List Item → String
  | [] => ""
  | i :: is => i.text ++ divider l i.isConstant is ++ laidOut is

def joined (constants : List Item) : String :=
  ("," ++ l.separator).intercalate (constants.map Item.text)

/-- The end of a line, and an empty line if anything follows. -/
def gap (more : Bool) : String := l.separator ++ if more then l.separator else ""

def group (constants : List Item) (more : Bool) : String :=
  joined l constants ++ ";" ++ gap l more

/-- All constants in one group, before all other fields. -/
def oneGroup (is : List Item) : String :=
  let constants := is.filter Item.isConstant
  let others := is.filter fun i => !i.isConstant
  (if constants.isEmpty then "" else group l constants !others.isEmpty) ++
    String.join (others.map Item.text)

/-- Constants that follow one another, with no constant right before or right after them. -/
structure IsRun (before constants after : List Item) : Prop where
  nonempty : constants ≠ []
  constant : ∀ i ∈ constants, i.isConstant = true
  before : ∀ i ∈ before.getLast?, i.isConstant = false
  after : ∀ i ∈ after.head?, i.isConstant = false

variable {l}

theorem laidOut_append {is : List Item} (h : ∀ i ∈ is.getLast?, i.isConstant = false)
    (js : List Item) : laidOut l (is ++ js) = laidOut l is ++ laidOut l js := by
  induction is with
  | nil => rw [List.nil_append, laidOut, String.empty_append]
  | cons i is ih =>
    cases is with
    | nil =>
      have hi : i.isConstant = false := h i rfl
      have hnone : ∀ js, divider l i.isConstant js = "" := by
        intro js
        rw [hi]
        cases js <;> rfl
      rw [List.singleton_append, laidOut, laidOut, hnone, hnone, laidOut, String.append_empty,
        String.append_empty]
    | cons j is =>
      have hrest := ih fun x hx => h x (by rwa [List.getLast?_cons_cons])
      rw [List.cons_append, laidOut, hrest, laidOut, ← String.append_assoc]
      rfl

theorem laidOut_constants {cs : List Item} (hne : cs ≠ [])
    (hcs : ∀ i ∈ cs, i.isConstant = true) {is : List Item}
    (his : ∀ i ∈ is.head?, i.isConstant = false) :
    laidOut l (cs ++ is) = group l cs (!is.isEmpty) ++ laidOut l is := by
  induction cs with
  | nil => exact absurd rfl hne
  | cons c cs ih =>
    have hc : c.isConstant = true := hcs c List.mem_cons_self
    cases cs with
    | nil =>
      have hend : divider l true is = ";" ++ gap l !is.isEmpty := by
        cases is with
        | nil => simp [divider, gap]
        | cons i is =>
          have hi : i.isConstant = false := his i rfl
          simp [divider, gap, hi, String.append_assoc]
      rw [List.singleton_append, laidOut, hc, hend, group, joined, List.map_singleton,
        String.intercalate_singleton, ← String.append_assoc]
    | cons d cs =>
      have hd : d.isConstant = true := hcs d (by simp)
      have hrest := ih (List.cons_ne_nil d cs) fun i hi => hcs i (List.mem_cons_of_mem _ hi)
      have hcomma : divider l true (d :: cs ++ is) = "," ++ l.separator := by
        simp [divider, hd]
      rw [List.cons_append, laidOut, hc, hcomma, hrest]
      simp only [group, joined, List.map_cons, String.intercalate_cons_cons, String.append_assoc]

theorem laidOut_run {before constants after : List Item} (h : IsRun before constants after) :
    laidOut l (before ++ constants ++ after) =
      laidOut l before ++ group l constants (!after.isEmpty) ++ laidOut l after := by
  rw [List.append_assoc, laidOut_append h.before, laidOut_constants h.nonempty h.constant h.after,
    String.append_assoc]

theorem laidOut_others {is : List Item} (h : ∀ i ∈ is, i.isConstant = false) :
    laidOut l is = String.join (is.map Item.text) := by
  induction is with
  | nil => rfl
  | cons i is ih =>
    have hi : i.isConstant = false := h i List.mem_cons_self
    have hnone : divider l false is = "" := by cases is <;> rfl
    rw [laidOut, hi, hnone, ih fun j hj => h j (List.mem_cons_of_mem _ hj), List.map_cons,
      String.join_cons, String.append_empty]

theorem semicolon_mem_laidOut {is : List Item} {c : Item} (hmem : c ∈ is)
    (hc : c.isConstant = true) : ';' ∈ (laidOut l is).toList := by
  induction is generalizing c with
  | nil => cases hmem
  | cons i is ih =>
    rw [laidOut, String.toList_append, List.mem_append]
    rcases List.mem_cons.mp hmem with rfl | hmem
    · -- The last constant of a run has the semicolon.
      cases is with
      | nil => simp [divider, hc]
      | cons j is =>
        cases hj : j.isConstant with
        | true => exact .inr (ih List.mem_cons_self hj)
        | false => simp [divider, hc, hj]
    · exact .inr (ih hmem hc)

def ConstantsFirst (is : List Item) : Prop :=
  is.Pairwise fun i j => j.isConstant = true → i.isConstant = true

theorem ConstantsFirst.eq_append {is : List Item} (h : ConstantsFirst is) :
    is = is.filter Item.isConstant ++ is.filter fun i => !i.isConstant := by
  induction is with
  | nil => rfl
  | cons i is ih =>
    obtain ⟨hi, his⟩ := List.pairwise_cons.mp h
    cases hc : i.isConstant with
    | true =>
      rw [List.filter_cons_of_pos hc, List.filter_cons_of_neg (by simp [hc]), List.cons_append,
        ← ih his]
    | false =>
      have hnone : is.filter Item.isConstant = [] :=
        List.filter_eq_nil_iff.mpr fun j hj hjc => by simp [hi j hj hjc] at hc
      rw [List.filter_cons_of_neg (by simp [hc]), List.filter_cons_of_pos (by simp [hc]), hnone,
        List.nil_append]
      have hrest := ih his
      rw [hnone, List.nil_append] at hrest
      rw [← hrest]

theorem ConstantsFirst.laidOut_eq {is : List Item} (h : ConstantsFirst is) :
    laidOut l is = oneGroup l is := by
  have hconstants : ∀ i ∈ is.filter Item.isConstant, i.isConstant = true :=
    fun i hi => (List.mem_filter.mp hi).2
  have hothers : ∀ i ∈ is.filter (fun i => !i.isConstant), i.isConstant = false := by
    intro i hi
    simpa using (List.mem_filter.mp hi).2
  have hfirst : ∀ i ∈ (is.filter fun i => !i.isConstant).head?, i.isConstant = false :=
    fun i hi => hothers i (List.mem_of_mem_head? hi)
  conv_lhs => rw [h.eq_append]
  rw [oneGroup]
  generalize is.filter Item.isConstant = cs at hconstants ⊢
  generalize (is.filter fun i => !i.isConstant) = os at hothers hfirst ⊢
  cases cs with
  | nil => exact laidOut_others hothers
  | cons c cs =>
    rw [laidOut_constants (List.cons_ne_nil c cs) hconstants hfirst, laidOut_others hothers]
    rfl

theorem exists_first_run {is : List Item} (h : ∃ c ∈ is, c.isConstant = true) :
    ∃ os cs rest, is = os ++ cs ++ rest ∧ (∀ i ∈ os, i.isConstant = false) ∧ IsRun os cs rest := by
  let isOther : Item → Bool := fun i => !i.isConstant
  have hos : ∀ i ∈ is.takeWhile isOther, i.isConstant = false := by
    intro i hi
    simpa [isOther] using List.mem_takeWhile_imp hi
  have hcs : ∀ i ∈ (is.dropWhile isOther).takeWhile Item.isConstant, i.isConstant = true :=
    fun i hi => List.mem_takeWhile_imp hi
  refine ⟨is.takeWhile isOther, (is.dropWhile isOther).takeWhile Item.isConstant,
    (is.dropWhile isOther).dropWhile Item.isConstant, ?_, hos, ?_, hcs, ?_, ?_⟩
  · rw [List.append_assoc, List.takeWhile_append_dropWhile, List.takeWhile_append_dropWhile]
  · obtain ⟨c, hmem, hc⟩ := h
    have hdrop := List.head?_dropWhile_not isOther is
    cases htail : is.dropWhile isOther with
    | nil =>
      have hother := List.dropWhile_eq_nil_iff.mp htail c hmem
      simp [isOther, hc] at hother
    | cons i tail =>
      rw [htail, List.head?_cons] at hdrop
      have hi : i.isConstant = true := by simpa [isOther] using hdrop
      rw [List.takeWhile_cons, if_pos hi]
      exact List.cons_ne_nil _ _
  · exact fun i hi => hos i (List.mem_of_mem_getLast? hi)
  · intro i hi
    have hdrop := List.head?_dropWhile_not Item.isConstant (is.dropWhile isOther)
    rw [Option.mem_def.mp hi] at hdrop
    exact hdrop

section Semicolons

theorem eq_of_append_semicolon {s t s' t' : String} (hs : Within (· ≠ ';') s)
    (ht : Within (· ≠ ';') t) (h : s ++ ";" ++ t = s' ++ ";" ++ t') : s = s' ∧ t = t' := by
  have hchars := congrArg String.toList h
  simp only [String.toList_append, List.append_assoc] at hchars
  obtain ⟨hs', -, ht'⟩ := (List.append_cons_inj_of_notMem (fun hmem => hs ';' hmem rfl)
    (fun hmem => ht ';' hmem rfl)).mp hchars
  exact ⟨String.toList_inj.mp hs', String.toList_inj.mp ht'⟩

variable (hsep : Within (· ≠ ';') l.separator)
include hsep

theorem within_joined {is : List Item} (his : ∀ i ∈ is, Within (· ≠ ';') i.text) :
    Within (· ≠ ';') (joined l is) := by
  have hcomma : Within (· ≠ ';') "," := by decide
  exact Text.within_intercalate (Text.within_append.mpr ⟨hcomma, hsep⟩)
    (List.forall_mem_map.mpr his)

theorem within_gap (more : Bool) : Within (· ≠ ';') (gap l more) := by
  refine Text.within_append.mpr ⟨hsep, ?_⟩
  cases more with
  | true => exact hsep
  | false => exact List.forall_mem_nil _

/-- The first semicolon ends the first run. If it is the only one then no constants follow, and if
all constants stand before it then nothing else does. -/
theorem alone_of_laidOut_eq {os cs rest : List Item} (hos : ∀ i ∈ os, i.isConstant = false)
    (hrun : IsRun os cs rest) (hplain : ∀ i ∈ os ++ cs ++ rest, Within (· ≠ ';') i.text)
    (h : laidOut l (os ++ cs ++ rest) = oneGroup l (os ++ cs ++ rest)) :
    (∀ i ∈ rest, i.isConstant = false) ∧ String.join (os.map Item.text) = "" := by
  have hconstants : (os ++ cs ++ rest).filter Item.isConstant =
      cs ++ rest.filter Item.isConstant := by
    rw [List.filter_append, List.filter_append, List.filter_eq_self.mpr hrun.constant,
      List.filter_eq_nil_iff.mpr fun i hi => by simp [hos i hi], List.nil_append]
  have hjoined := within_joined hsep fun i (hi : i ∈ cs ++ rest.filter Item.isConstant) =>
    hplain i (List.mem_filter.mp (hconstants ▸ hi)).1
  have hothers : Within (· ≠ ';') (String.join
      (((os ++ cs ++ rest).filter fun i => !i.isConstant).map Item.text)) :=
    Text.within_join (List.forall_mem_map.mpr fun i hi => hplain i (List.mem_filter.mp hi).1)
  have hfirst : (cs ++ rest.filter Item.isConstant).isEmpty = false := by
    simp [hrun.nonempty]
  rw [laidOut_run hrun, laidOut_others hos, oneGroup, hconstants, hfirst,
    if_neg Bool.false_ne_true] at h
  generalize (os ++ cs ++ rest).filter (fun i => !i.isConstant) = others at h hothers
  have htail := Text.within_append.mpr ⟨within_gap hsep !others.isEmpty, hothers⟩
  have hcut : joined l (cs ++ rest.filter Item.isConstant) ++ ";" ++
        (gap l (!others.isEmpty) ++ String.join (others.map Item.text)) =
      String.join (os.map Item.text) ++ joined l cs ++ ";" ++
        (gap l (!rest.isEmpty) ++ laidOut l rest) := by
    simp only [group, ← String.append_assoc] at h ⊢
    exact h.symm
  obtain ⟨hbefore, hafter⟩ := eq_of_append_semicolon hjoined htail hcut
  have hrest : ∀ i ∈ rest, i.isConstant = false := by
    intro i hi
    by_contra hc
    have hmem := semicolon_mem_laidOut (l := l) hi (by simpa using hc)
    rw [hafter] at htail
    exact (Text.within_append.mp htail).2 ';' hmem rfl
  refine ⟨hrest, ?_⟩
  rw [List.filter_eq_nil_iff.mpr fun i hi => by simp [hrest i hi], List.append_nil] at hbefore
  have hlength := congrArg String.length hbefore
  rw [String.length_append] at hlength
  exact String.length_eq_zero_iff.mp (by omega)

theorem constantsFirst_of_laidOut_eq {is : List Item}
    (hplain : ∀ i ∈ is, Within (· ≠ ';') i.text)
    (hnonempty : ∀ i ∈ is, i.isConstant = false → i.text ≠ "")
    (h : laidOut l is = oneGroup l is) : ConstantsFirst is := by
  by_cases hany : ∃ c ∈ is, c.isConstant = true
  · obtain ⟨os, cs, rest, rfl, hos, hrun⟩ := exists_first_run hany
    obtain ⟨hrest, hempty⟩ := alone_of_laidOut_eq hsep hos hrun hplain h
    cases os with
    | nil =>
      refine List.pairwise_append.mpr ⟨?_, ?_, fun i hi _ _ _ => hrun.constant i hi⟩
      · exact List.pairwise_of_forall_mem_list fun i hi _ _ _ => hrun.constant i hi
      · exact List.pairwise_of_forall_mem_list fun _ _ j hj hc => by simp [hrest j hj] at hc
    | cons o os =>
      rw [List.map_cons, String.join_cons, String.append_eq_empty_iff] at hempty
      exact absurd hempty.1 (hnonempty o (by simp) (hos o List.mem_cons_self))
  · exact List.pairwise_of_forall_mem_list fun i _ j hj hc => absurd ⟨j, hj, hc⟩ hany

end Semicolons

end Layout

section Written

variable (k : Kit σ) (c : ClassDecl) (l : Text.Layout) (level : Nat)

def leadText (f : FieldDecl) (remarks : List String) : String :=
  String.join ((leadTexts f.deprecated f.annotations remarks).map (l.fullLine level))

def argsText (f : FieldDecl) : String :=
  match k.renderer.initializer c f with
  | some args => if args.isEmpty then "" else "(" ++ args ++ ")"
  | none => ""

def constantText (f : FieldDecl) : String :=
  leadText l level f [] ++ (l.indentText level ++ (f.name ++ argsText k c f))

def otherText (f : FieldDecl) (type : String) : String :=
  leadText l level f (if f.isSynthetic then ["synthetic field"] else []) ++
    l.fullLine level ((modifiers c f).renderLeading .property ++
      (if isVar c f then "var " else "val ") ++ f.name ++ ": " ++ type ++ " = " ++
      initialValue k c f (shownType k.options f))

/-- A field as it is written, and the short names after it. -/
def shown (i : Imports) (f : FieldDecl) : Item × Imports :=
  if isConstant k.options c f then (⟨true, constantText k c l level f⟩, i)
  else
    let type := (shownType k.options f).display Imports.shortName i
    (⟨false, otherText k c l level f type.1⟩, type.2)

def items : Imports → List FieldDecl → List Item
  | _, [] => []
  | i, f :: fs => (shown k c l level i f).1 :: items (shown k c l level i f).2 fs

theorem isConstant_shown (i : Imports) (f : FieldDecl) :
    (shown k c l level i f).1.isConstant = isConstant k.options c f := by
  rw [shown]
  split
  · next hf => exact hf.symm
  · next hf => exact (eq_false_of_ne_true hf).symm

theorem isConstant_items (i : Imports) (fs : List FieldDecl) :
    (items k c l level i fs).map Item.isConstant = fs.map (isConstant k.options c) := by
  induction fs generalizing i with
  | nil => rfl
  | cons f fs ih => rw [items, List.map_cons, List.map_cons, ih, isConstant_shown]

theorem text_ne_empty_of_mem_items {l : Text.Layout} (hl : l.separator ≠ "") {i : Imports}
    {fs : List FieldDecl} : ∀ x ∈ items k c l level i fs, x.isConstant = false → x.text ≠ "" := by
  induction fs generalizing i with
  | nil => exact List.forall_mem_nil _
  | cons f fs ih =>
    refine List.forall_mem_cons.mpr ⟨fun hother hempty => hl ?_, ih⟩
    rw [isConstant_shown] at hother
    rw [shown, if_neg (by simp [hother])] at hempty
    simp only [otherText, Text.Layout.fullLine, String.append_eq_empty_iff] at hempty
    exact hempty.2.2

/-- The second bench has the given text more, and the given short names. -/
structure Adds (b : Bench σ) (s : String) (i : Imports) (b' : Bench σ) : Prop where
  buffer : b'.draft.buffer = b.draft.buffer.append s
  imports : b'.draft.imports = i

theorem Adds.layout {a b : Bench σ} {s : String} {i : Imports} (h : Adds a s i b) :
    b.draft.buffer.layout = a.draft.buffer.layout := by
  rw [h.buffer]
  rfl

theorem Adds.trans {a b d : Bench σ} {s t : String} {i j : Imports} (h : Adds a s i b)
    (h' : Adds b t j d) : Adds a (s ++ t) j d := by
  refine ⟨?_, h'.imports⟩
  rw [h'.buffer, h.buffer]
  simp only [Text.Buffer.append, String.append_assoc]

theorem adds_editWhen (p : Bool) {s : String} {f : Draft → Draft} {b : Bench σ}
    (hbuffer : (f b.draft).buffer = b.draft.buffer.append s)
    (himports : (f b.draft).imports = b.draft.imports) :
    Adds b (if p then s else "") b.draft.imports (SketchM.editWhen p f b).2 := by
  cases p with
  | true => exact ⟨hbuffer, himports⟩
  | false =>
    refine ⟨?_, rfl⟩
    rw [if_neg Bool.false_ne_true, Text.Buffer.append, String.append_empty]
    rfl

theorem adds_sketchConstant (f : FieldDecl) (b : Bench σ) :
    Adds b (constantText k c b.draft.buffer.layout level f) b.draft.imports
      (sketchConstant k c f level b).2 := by
  have hdraft : (sketchConstant k c f level b).2.draft =
      ((leadLines f.deprecated f.annotations [] level b.draft).appendIndent level).append
        (f.name ++ argsText k c f) := by
    simp only [sketchConstant, SketchM.edit, modify, modifyGet, MonadStateOf.modifyGet,
      StateT.modifyGet, pure, argsText, Draft.append, Text.Buffer.append]
    cases k.renderer.initializer c f with
    | none => rw [String.append_empty]
    | some args =>
      dsimp only
      split
      · rw [String.append_empty]
      · rw [String.append_assoc]
  constructor <;> rw [hdraft, leadLines_eq_writeLines, Draft.writeLines_eq]
  · simp only [Draft.append, Draft.appendIndent, Text.Buffer.appendIndent, Text.Buffer.append,
      constantText, leadText, String.append_assoc]
  · rfl

theorem adds_sketchField (f : FieldDecl) (b : Bench σ) :
    let type := (shownType k.options f).display Imports.shortName b.draft.imports
    Adds b (otherText k c b.draft.buffer.layout level f type.1) type.2
      (sketchField k c f level b).2 := by
  have hlead := leadLines_eq_writeLines f.deprecated f.annotations
    (if f.isSynthetic then ["synthetic field"] else []) level b.draft
  rw [Draft.writeLines_eq] at hlead
  constructor <;>
  simp only [sketchField, SketchM.edit, bind, StateT.bind, modify, modifyGet,
    MonadStateOf.modifyGet, StateT.modifyGet, pure, hlead, otherText, leadText,
    SketchM.typeText_eq_inImports, SketchM.inImports, Draft.writeLine, Text.Buffer.appendLine,
    Text.Buffer.appendIndent, Text.Buffer.endLine, Text.Buffer.append, Text.Layout.fullLine,
    String.append_assoc]

/-- One field in its turn, after what divides it from the one before. -/
def turn (inGroup : Bool) (f : FieldDecl) : SketchM σ Unit :=
  if isConstant k.options c f then do
    SketchM.editWhen inGroup fun d => (d.append ",").endLine
    sketchConstant k c f level
  else do
    SketchM.editWhen inGroup fun d => ((d.append ";").endLine).endLine
    sketchField k c f level

theorem sketchFrom_cons (inGroup : Bool) (f : FieldDecl) (fs : List FieldDecl) (b : Bench σ) :
    sketchFrom k c level inGroup (f :: fs) b =
      sketchFrom k c level (isConstant k.options c f) fs (turn k c level inGroup f b).2 := by
  rw [sketchFrom, turn]
  cases isConstant k.options c f <;> rfl

theorem adds_turn (inGroup : Bool) (f : FieldDecl) (b : Bench σ) :
    let s := shown k c b.draft.buffer.layout level b.draft.imports f
    Adds b (divider b.draft.buffer.layout inGroup [s.1] ++ s.1.text) s.2
      (turn k c level inGroup f b).2 := by
  dsimp only
  rw [turn, shown]
  split
  · next hf =>
    have hcomma : Adds b (if inGroup then "," ++ b.draft.buffer.layout.separator else "")
        b.draft.imports (SketchM.editWhen inGroup (fun d => (d.append ",").endLine) b).2 :=
      adds_editWhen inGroup (congrArg (Text.Buffer.mk · _) String.append_assoc) rfl
    have hconstant := adds_sketchConstant k c level f
      (SketchM.editWhen inGroup (fun d => (d.append ",").endLine) b).2
    rw [hcomma.layout, hcomma.imports] at hconstant
    exact hcomma.trans hconstant
  · next hf =>
    have hend : Adds b (if inGroup then
          ";" ++ b.draft.buffer.layout.separator ++ b.draft.buffer.layout.separator else "")
        b.draft.imports
        (SketchM.editWhen inGroup (fun d => ((d.append ";").endLine).endLine) b).2 := by
      refine adds_editWhen inGroup (congrArg (Text.Buffer.mk · _) ?_) rfl
      rw [← String.append_assoc, ← String.append_assoc]
      rfl
    have hfield := adds_sketchField k c level f
      (SketchM.editWhen inGroup (fun d => ((d.append ";").endLine).endLine) b).2
    rw [hend.layout, hend.imports] at hfield
    exact hend.trans hfield

theorem text_sketchFrom (inGroup : Bool) (fs : List FieldDecl) (b : Bench σ) :
    let is := items k c b.draft.buffer.layout level b.draft.imports fs
    (sketchFrom k c level inGroup fs b).2.draft.buffer.text =
      b.draft.buffer.text ++ (divider b.draft.buffer.layout inGroup is ++
        laidOut b.draft.buffer.layout is) := by
  induction fs generalizing inGroup b with
  | nil =>
    simp only [sketchFrom, items, divider, laidOut, String.append_empty]
    cases inGroup with
    | true => exact String.append_assoc
    | false => exact String.append_empty.symm
  | cons f fs ih =>
    have hturn := adds_turn k c level inGroup f b
    have hrest := ih (isConstant k.options c f) (turn k c level inGroup f b).2
    dsimp only at hturn hrest ⊢
    rw [sketchFrom_cons, hrest, hturn.layout, hturn.imports, hturn.buffer, items, laidOut,
      isConstant_shown]
    simp only [Text.Buffer.append, String.append_assoc]
    rfl

end Written

theorem constantsFirst_items_iff {k : Kit σ} {c : ClassDecl} (henum : c.isEnum = true)
    (hgrouping : k.options.enumSyntax = true) (l : Text.Layout) (level : Nat) (i : Imports)
    (fs : List FieldDecl) : ConstantsFirst (items k c l level i fs) ↔
      fs.Pairwise fun f g => g.access.has .enumFlag = true → f.access.has .enumFlag = true := by
  have hflag : ∀ f, isConstant k.options c f = f.access.has .enumFlag := by
    intro f
    rw [isConstant, henum, hgrouping, Bool.true_and, Bool.true_and]
  have hkinds : ConstantsFirst (items k c l level i fs) ↔
      ((items k c l level i fs).map Item.isConstant).Pairwise fun p q => q = true → p = true := by
    rw [List.pairwise_map]
    rfl
  rw [hkinds, isConstant_items, List.pairwise_map]
  simp only [hflag]

/-- Each run of constants becomes a group. All of them become one group before all other fields if
no other field comes before a constant, and, if fields hold no semicolons, only then. -/
theorem enum_constants_one_group_iff (k : Kit σ) (hidden : List String) {c : ClassDecl}
    (henum : c.isEnum = true) (hgrouping : k.options.enumSyntax = true) (level : Nat)
    (b : Bench σ) :
    let l := b.draft.buffer.layout
    let fields := c.fields.filter fun f => !isHidden k.options hidden c f
    let is := items k c l level b.draft.imports fields
    let text := (sketchAll k hidden c level b).2.draft.buffer.text
    let first := fields.Pairwise fun f g =>
      g.access.has .enumFlag = true → f.access.has .enumFlag = true
    text = b.draft.buffer.text ++ laidOut l is ∧
      (∀ before constants after, is = before ++ constants ++ after →
        IsRun before constants after →
        laidOut l is =
          laidOut l before ++ group l constants (!after.isEmpty) ++ laidOut l after) ∧
      (first → text = b.draft.buffer.text ++ oneGroup l is) ∧
      (l.separator ≠ "" → Within (· ≠ ';') l.separator → (∀ i ∈ is, Within (· ≠ ';') i.text) →
        text = b.draft.buffer.text ++ oneGroup l is → first) := by
  intro l fields is text first
  have hfirst : ConstantsFirst is ↔ first :=
    constantsFirst_items_iff henum hgrouping l level b.draft.imports fields
  have htext : text = b.draft.buffer.text ++ laidOut l is := by
    have hrun := text_sketchFrom k c level false fields b
    have hnone : divider l false is = "" := by cases is <;> rfl
    dsimp only at hrun
    rw [hnone, String.empty_append] at hrun
    exact hrun
  refine ⟨htext, ?_, ?_, ?_⟩
  · intro before constants after his hrun
    rw [his]
    exact laidOut_run hrun
  · intro h
    rw [htext, (hfirst.mpr h).laidOut_eq]
  · intro hne hsep hplain h
    have hlaid : laidOut l is = oneGroup l is := (String.append_right_inj _).mp (htext.symm.trans h)
    exact hfirst.mp (constantsFirst_of_laidOut_eq hsep hplain
      (text_ne_empty_of_mem_items k c level hne) hlaid)

section Colors

def colorKit : Kit Unit := ⟨{}, PreparedBodies.renderer {} Unit⟩

def red : FieldDecl := { name := "RED", descriptor := "La/Color;", access := ⟨16409⟩ }

def green : FieldDecl := { red with name := "GREEN" }

def count : FieldDecl := { name := "count", descriptor := "I", access := ⟨10⟩ }

def color (fields : List FieldDecl) : ClassDecl where
  name := "a/Color"
  access := ⟨16433⟩
  superclass := some "java/lang/Enum"
  fields := fields

def colorBench (fields : List FieldDecl) : Bench Unit :=
  ⟨⟨⟨.ofList [color fields], []⟩, (), [], []⟩, .ofRoot "a/Color" {}⟩

theorem colors_in_one_group :
    (color [red, green, count]).isEnum = true ∧
      (sketchAll colorKit [] (color [red, green, count]) 1
          (colorBench [red, green, count])).2.draft.buffer.text =
        "   RED,\n   GREEN;\n\n   private var count: int = 0\n" := by
  have henum : (color [red, green, count]).isEnum = true := by decide
  have hgrouped := (enum_constants_one_group_iff colorKit [] henum rfl 1
    (colorBench [red, green, count])).2.2.1 (by decide)
  refine ⟨henum, hgrouped.trans ?_⟩
  decide +kernel

/-- An ordinary field between two constants divides them into two groups. -/
theorem colors_in_two_groups :
    (let b := colorBench [red, count, green]
      let l := b.draft.buffer.layout
      let is := items colorKit (color [red, count, green]) l 1 b.draft.imports [red, count, green]
      (sketchAll colorKit [] (color [red, count, green]) 1 b).2.draft.buffer.text ≠ oneGroup l is) ∧
      ((Session.start colorKit (.ofList [color [red, count, green]]) () .keep).write
          "a/Color").toOption.map (·.1.text) =
        some ("package a\n\nenum class Color \x7b\n   RED;\n\n   private var count: int = 0\n" ++
          "   GREEN;\n\x7d\n") := by
  decide +kernel

end Colors

end FieldSketch

end ClassSketch
