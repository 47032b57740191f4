import ClassSketch.Proofs.Sketching

/-! Heads of classes, fields, heads of methods and modules, run side by side from two states. -/

namespace ClassSketch

open Text (Within)

namespace Header

variable {σ : Type}

def headSignature (k : Kit σ) (c : ClassDecl) : SketchM σ (Option ClassSignature) :=
  if k.options.genericSignatures then SketchM.inGenealogy (Genealogy.signature? c) else pure none

def paramsText : Option ClassSignature → SketchM σ String
  | some s => SketchM.typeParameters s.typeParams
  | none => pure ""

def partsText (generic : Bool) : Option (List RecordPart) → SketchM σ String
  | some ps => do return "(" ++ ", ".intercalate (← partTexts generic ps) ++ ")"
  | none => pure ""

def headSupertypes (c : ClassDecl) : Option ClassSignature → SketchM σ (List String)
  | some s => supertypeTexts c (some s.superclass) s.interfaces
  | none => supertypeTexts c (c.superclass.map JType.ofClass) (c.interfaces.map JType.ofClass)

/-- A declaration, part by part. -/
theorem declarationText_eq (k : Kit σ) (n : ClassNode) : declarationText k n = do
    let signature ← headSignature k n.decl
    let params ← paramsText signature
    let parts ← partsText k.options.genericSignatures n.decl.recordParts
    let supertypes ← headSupertypes n.decl signature
    return (modifiers n).renderLeading .class_ ++ keyword k.options.enumSyntax n.decl ++ " "
      ++ n.displayName ++ params ++ parts
      ++ (if supertypes.isEmpty then "" else " : " ++ ", ".intercalate supertypes) ++ " \x7b" := by
  rw [declarationText, headSignature]
  split
  all_goals
    refine congrArg _ (funext fun signature => ?_)
    cases signature <;> cases n.decl.recordParts <;> rfl

end Header

namespace Strokes

variable {σ : Type} {w : Wording} {fits : String → Prop} {L : Nat → Nat → Prop}
  {C : ClassDecl → Prop} {R R' : Bench σ → Bench σ → Prop} {level level' : Nat}

section Header

theorem partTexts (h : Strokes w fits L C R) (generic : Bool) {ps : List RecordPart}
    (hps : ∀ p ∈ ps, w.Holds p.texts) :
    Keeps R (Same (∀ s ∈ ·, Within w.letter s)) (Header.partTexts generic ps)
      (Header.partTexts generic ps) := by
  induction ps with
  | nil => exact Keeps.pure ⟨rfl, by simp⟩
  | cons p ps ih =>
    have hp := hps p List.mem_cons_self
    refine (h.typeText (Header.partType_worded hp generic)).bindSame fun type htype => ?_
    refine (ih fun p hp => hps p (List.mem_cons_of_mem _ hp)).bindSame fun others hothers => ?_
    have htext : Within w.letter (p.name ++ ": " ++ type) :=
      Text.within_append.mpr ⟨Text.within_append.mpr
        ⟨hp p.name (by simp [RecordPart.texts]), w.fixed (by decide)⟩, htype⟩
    exact Keeps.pure ⟨rfl, List.forall_mem_cons.mpr ⟨htext, hothers⟩⟩

theorem supertypeTexts (h : Strokes w fits L C R) (c : ClassDecl) {superclass : Option JType}
    {interfaces : List JType} (hs : ∀ t, superclass = some t → t.Worded w)
    (hi : ∀ t ∈ interfaces, t.Worded w) :
    Keeps R (Same (∀ s ∈ ·, Within w.letter s)) (Header.supertypeTexts c superclass interfaces)
      (Header.supertypeTexts c superclass interfaces) := by
  have hshown : ∀ t ∈ Header.shownInterfaces c interfaces, t.Worded w := by
    intro t ht
    rw [Header.shownInterfaces] at ht
    split at ht
    · exact hi t (List.mem_filter.mp ht).1
    · exact hi t ht
  have hothers : ∀ first : List String, (∀ s ∈ first, Within w.letter s) →
      Keeps R (Same (∀ s ∈ ·, Within w.letter s))
        (do return first ++ (← SketchM.typeTexts (Header.shownInterfaces c interfaces)))
        (do return first ++ (← SketchM.typeTexts (Header.shownInterfaces c interfaces))) := by
    intro first hfirst
    refine (h.typeTexts hshown).bindSame fun others hothers => Keeps.pure ⟨rfl, fun s hs => ?_⟩
    exact (List.mem_append.mp hs).elim (hfirst s) (hothers s)
  simp only [Header.supertypeTexts]
  cases hf : superclass.filter fun t => !Header.isImplied t with
  | none => exact hothers [] (by simp)
  | some t =>
    have ht : t.Worded w := hs t (Option.filter_eq_some_iff.mp hf).1
    refine (h.typeText ht).bindSame fun s hs => hothers [s ++ "()"] ?_
    simpa using Text.within_append.mpr ⟨hs, w.fixed (by decide)⟩

theorem within_keyword (enumSyntax : Bool) (c : ClassDecl) :
    Within w.letter (Header.keyword enumSyntax c) := by
  rw [Header.keyword]
  split
  · exact w.fixed (by decide)
  · exact w.fixed (by decide)
  · split_ifs <;> exact w.fixed (by decide)

theorem headSignature (h : Strokes w fits L C R) (k : Kit σ) {c : ClassDecl} (hC : C c)
    (hc : w.Holds c.texts) :
    Keeps R (Same fun s => ∀ x, s = some x → x.Worded w) (Header.headSignature k c)
      (Header.headSignature k c) := by
  rw [Header.headSignature]
  split
  · exact h.signature c hC hc
  · exact Keeps.pure ⟨rfl, by simp⟩

theorem paramsText (h : Strokes w fits L C R) {signature : Option ClassSignature}
    (hs : ∀ x, signature = some x → x.Worded w) :
    Keeps R (Same (Within w.letter)) (Header.paramsText signature) (Header.paramsText signature) := by
  cases signature with
  | none => exact Keeps.pure ⟨rfl, w.fixed (by decide)⟩
  | some s => exact h.typeParameters (hs s rfl).typeParams

theorem partsText (h : Strokes w fits L C R) (generic : Bool) {parts : Option (List RecordPart)}
    (hps : ∀ ps, parts = some ps → ∀ p ∈ ps, w.Holds p.texts) :
    Keeps R (Same (Within w.letter)) (Header.partsText generic parts)
      (Header.partsText generic parts) := by
  cases parts with
  | none => exact Keeps.pure ⟨rfl, w.fixed (by decide)⟩
  | some ps =>
    refine (h.partTexts generic (hps ps rfl)).bindSame fun texts htexts => ?_
    exact Keeps.pure ⟨rfl, Text.within_append.mpr ⟨Text.within_append.mpr ⟨w.fixed (by decide),
      Text.within_intercalate (w.fixed (by decide)) htexts⟩, w.fixed (by decide)⟩⟩

theorem headSupertypes (h : Strokes w fits L C R) {c : ClassDecl} (hc : w.Holds c.texts)
    {signature : Option ClassSignature} (hs : ∀ x, signature = some x → x.Worded w) :
    Keeps R (Same (∀ s ∈ ·, Within w.letter s)) (Header.headSupertypes c signature)
      (Header.headSupertypes c signature) := by
  cases signature with
  | none =>
    refine h.supertypeTexts c (fun t ht => ?_) fun t ht => ?_
    · obtain ⟨s, hs, rfl⟩ := Option.map_eq_some_iff.mp ht
      exact JType.worded_ofClass (c.superclass_holds hc s hs)
    · obtain ⟨s, hs, rfl⟩ := List.mem_map.mp ht
      exact JType.worded_ofClass (c.interfaces_holds hc s hs)
  | some s =>
    have hs := hs s rfl
    exact h.supertypeTexts c (fun t ht => Option.some.inj ht ▸ hs.superclass) hs.interfaces

/-- The declaration of a class ends with an opening brace. -/
theorem declarationText (h : Strokes w fits L C R) (k : Kit σ) {n : ClassNode} (hC : C n.decl)
    (hn : w.Holds n.texts) :
    Keeps R (Same fun s => ∃ t, fits t ∧ s = t ++ " \x7b") (Header.declarationText k n)
      (Header.declarationText k n) := by
  have hc := n.decl_holds hn
  rw [Header.declarationText_eq]
  refine (h.headSignature k hC hc).bindSame fun signature hsignature => ?_
  refine (h.paramsText hsignature).bindSame fun params hparams => ?_
  refine (h.partsText _ fun ps hps p hp => n.decl.part_holds hc hps hp).bindSame
    fun parts hparts => ?_
  refine (h.headSupertypes hc hsignature).bindSame fun supertypes hsupertypes => ?_
  have hsuper : Within w.letter (if supertypes.isEmpty then ""
      else " : " ++ ", ".intercalate supertypes) := by
    split
    · exact w.fixed (by decide)
    · exact Text.within_append.mpr ⟨w.fixed (by decide),
        Text.within_intercalate (w.fixed (by decide)) hsupertypes⟩
  have hlead := w.within_renderLeading (Header.modifiers n) .class_
  have hkeyword : Within w.letter (Header.keyword k.options.enumSyntax n.decl) :=
    within_keyword _ _
  refine Keeps.pure ⟨rfl, _, h.fits_of_within _ ?_, rfl⟩
  simp only [Text.within_append]
  exact ⟨⟨⟨⟨⟨⟨hlead, hkeyword⟩, w.fixed (by decide)⟩, n.displayName_holds hn⟩, hparams⟩, hparts⟩,
    hsuper⟩

theorem within_classRemarks {n : ClassNode} (hn : w.Holds n.texts) :
    ∀ s ∈ (n.renamedFrom.map ("renamed from: " ++ ·)).toList ++
      (if n.access.isSynthetic || n.decl.isSynthetic then ["synthetic class"] else []),
      Within w.letter s := by
  intro s hs
  rcases List.mem_append.mp hs with hs | hs
  · obtain ⟨t, ht, rfl⟩ := Option.map_eq_some_iff.mp (Option.mem_toList.mp hs)
    exact Text.within_append.mpr ⟨w.fixed (by decide), n.renamedFrom_holds hn t ht⟩
  · split at hs
    · rw [List.mem_singleton.mp hs]
      exact w.fixed (by decide)
    · cases hs

/-- The head of a class opens a brace. -/
theorem header (h : Strokes w fits L C R) (hopen : Turns fits L .opening R R') (hL : L level level')
    (k : Kit σ) {n : ClassNode} (hC : C n.decl) (hn : w.Holds n.texts) {b b' : Bench σ}
    (hb : R b b') :
    R' (Header.sketch k n level b).2 (Header.sketch k n level' b').2 := by
  have hc := n.decl_holds hn
  rw [Header.sketch, Header.sketch]
  split
  · change R' { b with draft := (b.draft.append " \x7b").endLine }
      { b' with draft := (b'.draft.append " \x7b").endLine }
    rw [Draft.append_open_eq_draw level, Draft.append_open_eq_draw level']
    exact hopen _ rfl hL (h.fixed (by decide)) hb
  · have hdeclared : ∀ c c' : Bench σ, R c c' →
        R' ((Header.declarationText k n >>= fun s => SketchM.edit (Draft.writeLine level s)) c).2
          ((Header.declarationText k n >>= fun s => SketchM.edit (Draft.writeLine level' s))
            c').2 := by
      intro c c' hc
      have htext := h.declarationText k hC hn c c' hc
      simp only [bind, StateT.bind]
      generalize Header.declarationText k n c = r at htext ⊢
      generalize Header.declarationText k n c' = r' at htext ⊢
      obtain ⟨_, d⟩ := r
      obtain ⟨_, d'⟩ := r'
      obtain ⟨⟨rfl, t, ht, rfl⟩, hr⟩ := htext
      exact hopen.writeOpening hL ht hr
    exact hdeclared _ _ (h.leadLines hL _ (n.decl.annotations_holds hc) (within_classRemarks hn) hb)

theorem closingBrace (h : Strokes w fits L C R) (hclose : Turns fits L .closing R R')
    (hL : L level level') (n : ClassNode) {b b' : Bench σ} (hb : R b b') :
    R' { b with draft := TypeSketch.closingBrace n level b.draft }
      { b' with draft := TypeSketch.closingBrace n level' b'.draft } := by
  have hempty : fits "" := h.fixed (by decide)
  rw [Draft.closingBrace_eq_draw, Draft.closingBrace_eq_draw]
  exact hclose _ rfl hL hempty hb

end Header

section Fields

theorem sketchConstant (h : Strokes w fits L C R) (hL : L level level') {k : Kit σ} {c : ClassDecl}
    {f : FieldDecl} (hvalue : k.Values fits c f) (hf : w.Holds f.texts) :
    Keeps R Anyhow (FieldSketch.sketchConstant k c f level)
      (FieldSketch.sketchConstant k c f level') := by
  have ha : ∀ s ∈ f.annotations, Within w.letter s := fun s hs => hf s (by simp [FieldDecl.texts, hs])
  have hname : fits f.name := h.fits_of_within _ (hf _ (by simp [FieldDecl.texts]))
  refine Steps.edit _ _ fun b b' hb => ?_
  have hlead := h.leadLines hL f.deprecated ha (List.forall_mem_nil _) hb
  cases hi : k.renderer.initializer c f with
  | none =>
    simp only [Draft.appendIndent_append_eq_draw]
    exact h.plain { text := f.name, ends := false } rfl hL hname hlead
  | some args =>
    by_cases he : args.isEmpty = true
    · simp only [he, if_true, Draft.appendIndent_append_eq_draw]
      exact h.plain { text := f.name, ends := false } rfl hL hname hlead
    · have hargs : fits ("(" ++ args ++ ")") :=
        h.fits_append _ _ (h.fits_append _ _ (h.fixed (by decide)) (hvalue.arguments args hi))
          (h.fixed (by decide))
      simp only [he, Bool.false_eq_true, if_false, Draft.append_append]
      simp only [Draft.appendIndent_append_eq_draw]
      exact h.plain { text := f.name ++ ("(" ++ args ++ ")"), ends := false } rfl hL
        (h.fits_append _ _ hname hargs) hlead

theorem within_fieldRemarks (f : FieldDecl) :
    ∀ s ∈ (if f.isSynthetic then ["synthetic field"] else []), Within w.letter s := by
  intro s hs
  split at hs
  · rw [List.mem_singleton.mp hs]
    exact w.fixed (by decide)
  · cases hs

/-- The line of a field up to its value. -/
theorem within_fieldStart (c : ClassDecl) {f : FieldDecl} (hf : w.Holds f.texts) {type : String}
    (htype : Within w.letter type) :
    Within w.letter ((FieldSketch.modifiers c f).renderLeading .property
      ++ (if FieldSketch.isVar c f then "var " else "val ") ++ f.name ++ ": " ++ type ++ " = ") := by
  have hlead := w.within_renderLeading (FieldSketch.modifiers c f) .property
  have hvar : Within w.letter (if FieldSketch.isVar c f then "var " else "val ") := by
    split <;> exact w.fixed (by decide)
  simp only [Text.within_append]
  exact ⟨⟨⟨⟨⟨hlead, hvar⟩, hf _ (by simp [FieldDecl.texts])⟩, w.fixed (by decide)⟩, htype⟩,
    w.fixed (by decide)⟩

theorem sketchField (h : Strokes w fits L C R) (hL : L level level') {k : Kit σ} {c : ClassDecl}
    {f : FieldDecl} (hvalue : k.Values fits c f) (hf : w.Holds f.texts) :
    Keeps R Anyhow (FieldSketch.sketchField k c f level)
      (FieldSketch.sketchField k c f level') := by
  have ha : ∀ s ∈ f.annotations, Within w.letter s := fun s hs => hf s (by simp [FieldDecl.texts, hs])
  refine (Steps.edit _ _ fun b b' hb => h.leadLines hL _ ha (within_fieldRemarks f) hb).seq ?_
  refine (h.typeText (FieldSketch.shownType_worded hf k.options)).bindSame fun type htype => ?_
  have hstart := within_fieldStart c hf htype
  exact Steps.edit _ _ fun b b' hb =>
    h.writeLine hL (h.fits_append _ _ (h.fits_of_within _ hstart) (hvalue.value _)) hb

theorem sketchFieldsFrom (h : Strokes w fits L C R) (hL : L level level') {k : Kit σ}
    {c : ClassDecl} {fs : List FieldDecl} (hvalues : ∀ f ∈ fs, k.Values fits c f)
    (hfs : ∀ f ∈ fs, w.Holds f.texts) (inGroup : Bool) :
    Keeps R Anyhow (FieldSketch.sketchFrom k c level inGroup fs)
      (FieldSketch.sketchFrom k c level' inGroup fs) := by
  have hcomma : fits "," := h.fixed (by decide)
  have hsemicolon : fits ";" := h.fixed (by decide)
  induction fs generalizing inGroup with
  | nil => exact Steps.editWhen _ _ _ fun b b' hb => h.stop hL hsemicolon hb
  | cons f fs ih =>
    have hf := hfs f List.mem_cons_self
    have hvalue := hvalues f List.mem_cons_self
    have hrest := ih (fun f hf => hvalues f (List.mem_cons_of_mem _ hf))
      fun f hf => hfs f (List.mem_cons_of_mem _ hf)
    simp only [FieldSketch.sketchFrom]
    split
    · refine (Steps.editWhen _ _ _ fun b b' hb => h.stop hL hcomma hb).seq ?_
      exact (h.sketchConstant hL hvalue hf).seq (hrest true)
    · have hdone : ∀ b b' : Bench σ, R b b' →
          R { b with draft := ((b.draft.append ";").endLine).endLine }
            { b' with draft := ((b'.draft.append ";").endLine).endLine } := by
        intro b b' hb
        have hblank := h.endLine hL (h.stop hL hsemicolon hb)
        exact hblank
      refine (Steps.editWhen _ _ _ hdone).seq ?_
      exact (h.sketchField hL hvalue hf).seq (hrest false)

theorem sketchFields (h : Strokes w fits L C R) (hL : L level level') {k : Kit σ}
    (hidden : List String) {c : ClassDecl} (hvalues : ∀ f ∈ c.fields, k.Values fits c f)
    (hc : w.Holds c.texts) :
    Keeps R Eq (FieldSketch.sketchAll k hidden c level)
      (FieldSketch.sketchAll k hidden c level') := by
  have hfs : ∀ f ∈ c.fields.filter fun f => !FieldSketch.isHidden k.options hidden c f,
      w.Holds f.texts := fun f hf => c.field_holds hc (List.mem_filter.mp hf).1
  have hshown : ∀ f ∈ c.fields.filter fun f => !FieldSketch.isHidden k.options hidden c f,
      k.Values fits c f := fun f hf => hvalues f (List.mem_filter.mp hf).1
  exact (h.sketchFieldsFrom hL hshown hfs false).seq (Keeps.pure rfl)

end Fields

section Methods

theorem paramTexts (h : Strokes w fits L C R) {k : Kit σ} (hk : k.Worded w) (c : ClassDecl)
    {m : MethodDecl} (hm : w.Holds m.texts) (varargs : Bool) (skip position : Nat) (raws : List Nat)
    {ts : List JType} (hts : ∀ t ∈ ts, t.Worded w) :
    Keeps R (Same (∀ s ∈ ·, Within w.letter s))
      (MethodSketch.paramTexts k c m varargs skip position raws ts)
      (MethodSketch.paramTexts k c m varargs skip position raws ts) := by
  induction raws generalizing position ts with
  | nil => exact Keeps.pure ⟨rfl, by simp⟩
  | cons raw raws ih =>
    cases ts with
    | nil => exact Keeps.pure ⟨rfl, by simp⟩
    | cons t ts =>
      have hrest := ih (position + 1) fun t ht => hts t (List.mem_cons_of_mem _ ht)
      have hname := k.parameterName_holds hk c hm raw position
      have hcons : ∀ first : String, Within w.letter first →
          Keeps R (Same (∀ s ∈ ·, Within w.letter s))
            (do return first :: (← MethodSketch.paramTexts k c m varargs skip (position + 1) raws ts))
            (do return first ::
              (← MethodSketch.paramTexts k c m varargs skip (position + 1) raws ts)) :=
        fun first hfirst => hrest.bindSame fun others hothers =>
          Keeps.pure ⟨rfl, List.forall_mem_cons.mpr ⟨hfirst, hothers⟩⟩
      simp only [MethodSketch.paramTexts]
      split
      · exact hrest
      · split
        · rename_i element he
          have ht := (hts t List.mem_cons_self).element (Option.filter_eq_some_iff.mp he).1
          refine (h.typeText ht).bindSame fun type htype =>
            hcons ("vararg " ++ k.parameterName c m raw position ++ ": " ++ type) ?_
          simp only [Text.within_append]
          exact ⟨⟨⟨w.fixed (by decide), hname⟩, w.fixed (by decide)⟩, htype⟩
        · refine (h.typeText (hts t List.mem_cons_self)).bindSame fun type htype =>
            hcons (k.parameterName c m raw position ++ ": " ++ type) ?_
          simp only [Text.within_append]
          exact ⟨⟨hname, w.fixed (by decide)⟩, htype⟩

theorem functionText (h : Strokes w fits L C R) {m : MethodDecl} (hm : w.Holds m.texts)
    {s : MethodShape} (hs : s.Worded w) :
    Keeps R (Same fun p => Within w.letter p.1) (MethodSketch.functionText m s)
      (MethodSketch.functionText m s) := by
  have hname : Within w.letter m.name := hm _ (by simp [MethodDecl.texts])
  rw [MethodSketch.functionText]
  refine (h.typeParameters hs.typeParams).bindSame fun params hparams => ?_
  have hlead : Within w.letter (if params.isEmpty then "" else params ++ " ") := by
    split
    · exact w.fixed (by decide)
    · exact Text.within_append.mpr ⟨hparams, w.fixed (by decide)⟩
  dsimp only
  split
  · rename_i t ts _ ht
    refine (h.typeText (hs.params t (ht ▸ List.mem_cons_self))).bindSame fun receiver hr => ?_
    refine Keeps.pure ⟨rfl, ?_⟩
    simp only [Text.within_append]
    exact ⟨⟨⟨⟨w.fixed (by decide), hlead⟩, hr⟩, w.fixed (by decide)⟩, hname⟩
  · refine Keeps.pure ⟨rfl, ?_⟩
    simp only [Text.within_append]
    exact ⟨⟨w.fixed (by decide), hlead⟩, hname⟩

theorem resultText (h : Strokes w fits L C R) (m : MethodDecl) {s : MethodShape} (hs : s.Worded w) :
    Keeps R (Same (Within w.letter)) (MethodSketch.resultText m s)
      (MethodSketch.resultText m s) := by
  rw [MethodSketch.resultText]
  split
  · exact Keeps.pure ⟨rfl, w.fixed (by decide)⟩
  · refine (h.typeText hs.result).bindSame fun type htype => ?_
    exact Keeps.pure ⟨rfl, Text.within_append.mpr ⟨w.fixed (by decide), htype⟩⟩

theorem signatureText (h : Strokes w fits L C R) {k : Kit σ} (hk : k.Worded w) (n : ClassNode)
    {m : MethodDecl} (hm : w.Holds m.texts) {s : MethodShape} (hs : s.Worded w) :
    Keeps R (Same (Within w.letter)) (MethodSketch.signatureText k n m s)
      (MethodSketch.signatureText k n m s) := by
  have hrest : ∀ p : String × Nat, Within w.letter p.1 →
      Keeps R (Same (Within w.letter))
        (do
          let params ← MethodSketch.paramTexts k n.decl m (s.flags.has .varargsFlag) p.2 0 s.visible
            s.params
          let result ← MethodSketch.resultText m s
          return p.1 ++ "(" ++ ", ".intercalate params ++ ")" ++ result)
        (do
          let params ← MethodSketch.paramTexts k n.decl m (s.flags.has .varargsFlag) p.2 0 s.visible
            s.params
          let result ← MethodSketch.resultText m s
          return p.1 ++ "(" ++ ", ".intercalate params ++ ")" ++ result) := by
    intro p hp
    refine (h.paramTexts hk n.decl hm _ _ _ _ hs.params).bindSame fun params hparams => ?_
    refine (h.resultText m hs).bindSame fun result hresult => Keeps.pure ⟨rfl, ?_⟩
    simp only [Text.within_append]
    exact ⟨⟨⟨⟨hp, w.fixed (by decide)⟩, Text.within_intercalate (w.fixed (by decide)) hparams⟩,
      w.fixed (by decide)⟩, hresult⟩
  rw [MethodSketch.signatureText]
  split
  · exact Keeps.pure ⟨rfl, w.fixed (by decide)⟩
  · split
    · exact Keeps.pure ⟨rfl, w.fixed (by decide)⟩
    · split
      · exact hrest ("constructor", 0) (w.fixed (by decide))
      · exact (h.functionText hm hs).bindSame fun p hp => hrest p hp

theorem headText (h : Strokes w fits L C R) {k : Kit σ} (hk : k.Worded w) (n : ClassNode)
    {m : MethodDecl} (hm : w.Holds m.texts) {s : MethodShape} (hs : s.Worded w) :
    Keeps R (Same (Within w.letter)) (MethodSketch.headText k n m s)
      (MethodSketch.headText k n m s) := by
  have hrest : ∀ overriding : Bool, Keeps R (Same (Within w.letter))
      (do
        let signature ← MethodSketch.signatureText k n m s
        return (if overriding then "override " else "") ++ s.modifiers.renderLeading s.owner
          ++ signature)
      (do
        let signature ← MethodSketch.signatureText k n m s
        return (if overriding then "override " else "") ++ s.modifiers.renderLeading s.owner
          ++ signature) := by
    intro overriding
    refine (h.signatureText hk n hm hs).bindSame fun signature hsignature => Keeps.pure ⟨rfl, ?_⟩
    have hword : Within w.letter (if overriding then "override " else "") := by
      split <;> exact w.fixed (by decide)
    simp only [Text.within_append]
    exact ⟨⟨hword, w.within_renderLeading _ _⟩, hsignature⟩
  rw [MethodSketch.headText]
  split
  · exact hrest false
  · refine (h.overriding n.decl m s.params).bind ?_
    rintro overriding _ rfl
    exact hrest overriding

theorem within_throws {texts : List String} (htexts : ∀ s ∈ texts, Within w.letter s) :
    Within w.letter ("@Throws(" ++ ", ".intercalate (texts.map (· ++ "::class")) ++ ")") := by
  simp only [Text.within_append]
  refine ⟨⟨w.fixed (by decide), Text.within_intercalate (w.fixed (by decide)) fun s hs => ?_⟩,
    w.fixed (by decide)⟩
  obtain ⟨t, ht, rfl⟩ := List.mem_map.mp hs
  exact Text.within_append.mpr ⟨htexts t ht, w.fixed (by decide)⟩

theorem throwsLine (h : Strokes w fits L C R) (hL : L level level') {ts : List JType}
    (hts : ∀ t ∈ ts, t.Worded w) :
    Keeps R Anyhow (MethodSketch.throwsLine ts level) (MethodSketch.throwsLine ts level') := by
  refine (h.typeTexts hts).bindSame fun texts htexts => ?_
  have hline := h.fits_of_within _ (within_throws htexts)
  exact Steps.editWhen _ _ _ fun b b' hb => h.writeLine hL hline hb

theorem within_methodRemarks (m : MethodDecl) :
    ∀ s ∈ (if m.isSynthetic then ["synthetic method"] else []) ++
      (if m.access.has .bridgeFlag then ["bridge method"] else []), Within w.letter s := by
  intro s hs
  rcases List.mem_append.mp hs with hs | hs <;> split at hs
  · rw [List.mem_singleton.mp hs]
    exact w.fixed (by decide)
  · cases hs
  · rw [List.mem_singleton.mp hs]
    exact w.fixed (by decide)
  · cases hs

theorem sketchLead (h : Strokes w fits L C R) (hL : L level level') {m : MethodDecl}
    (hm : w.Holds m.texts) {s : MethodShape} (hs : s.Worded w) :
    Keeps R Anyhow (MethodSketch.sketchLead m s level) (MethodSketch.sketchLead m s level') := by
  have ha : ∀ a ∈ m.annotations, Within w.letter a :=
    fun a ha => hm a (by simp [MethodDecl.texts, ha])
  refine (Steps.edit _ _ fun b b' hb => h.leadLines hL _ ha (within_methodRemarks m) hb).seq ?_
  exact h.throwsLine hL hs.throws

end Methods

section Modules

theorem within_directives {m : ModuleDecl} (hm : w.Holds m.texts) :
    ∀ s ∈ ModuleSketch.directives m, Within w.letter s := by
  have hlist : ∀ ss : List String, (∀ s ∈ ss, Within w.letter s) →
      Within w.letter (", ".intercalate ss) :=
    fun ss hss => Text.within_intercalate (w.fixed (by decide)) hss
  have hpackage : ∀ (word : String) (p : ModulePackage), Within w.letter word → w.Holds p.texts →
      Within w.letter (ModuleSketch.packageText word p) := by
    intro word p hword hp
    have hto : Within w.letter (if p.targets.isEmpty then ""
        else " to " ++ ", ".intercalate p.targets) := by
      split
      · exact w.fixed (by decide)
      · exact Text.within_append.mpr ⟨w.fixed (by decide),
          hlist _ fun s hs => hp s (by simp [ModulePackage.texts, hs])⟩
    have hname := w.within_qualified (hp p.package (by simp [ModulePackage.texts]))
    simp only [ModuleSketch.packageText, Text.within_append]
    exact ⟨⟨⟨⟨hword, w.fixed (by decide)⟩, hname⟩, hto⟩, w.fixed (by decide)⟩
  have hrequire : ∀ r ∈ m.requires, Within w.letter (ModuleSketch.requireText r) := by
    intro r hr
    have hname : Within w.letter r.module := hm _ (by
      simp only [ModuleDecl.texts, List.mem_append, List.mem_cons, List.mem_map]
      exact .inl (.inl (.inl (.inl (.inr ⟨r, hr, rfl⟩)))))
    have htransitive : Within w.letter (if r.transitive then "transitive " else "") := by
      split <;> exact w.fixed (by decide)
    have hstatic : Within w.letter (if r.compileOnly then "static " else "") := by
      split <;> exact w.fixed (by decide)
    simp only [ModuleSketch.requireText, Text.within_append]
    exact ⟨⟨⟨⟨w.fixed (by decide), htransitive⟩, hstatic⟩, hname⟩, w.fixed (by decide)⟩
  have hservice : ∀ p ∈ m.provides, Within w.letter (ModuleSketch.serviceText p) := by
    intro p hp
    have hp : w.Holds p.texts := hm.mono fun s hs => by
      simp only [ModuleDecl.texts, List.mem_append, List.mem_flatMap]
      exact .inr ⟨p, hp, hs⟩
    have hname := w.within_qualified (hp p.service (by simp [ModuleService.texts]))
    simp only [ModuleSketch.serviceText, Text.within_append]
    refine ⟨⟨⟨⟨w.fixed (by decide), hname⟩, w.fixed (by decide)⟩, hlist _ fun s hs => ?_⟩,
      w.fixed (by decide)⟩
    obtain ⟨t, ht, rfl⟩ := List.mem_map.mp hs
    exact w.within_qualified (hp t (by simp [ModuleService.texts, ht]))
  intro s hs
  simp only [ModuleSketch.directives, List.mem_append, List.mem_map] at hs
  rcases hs with (((⟨r, hr, rfl⟩ | ⟨p, hp, rfl⟩) | ⟨p, hp, rfl⟩) | ⟨u, hu, rfl⟩) | ⟨p, hp, rfl⟩
  · exact hrequire r hr
  · refine hpackage _ p (w.fixed (by decide)) (hm.mono fun s hs => ?_)
    simp only [ModuleDecl.texts, List.mem_append, List.mem_flatMap]
    exact .inl (.inl (.inl (.inr ⟨p, hp, hs⟩)))
  · refine hpackage _ p (w.fixed (by decide)) (hm.mono fun s hs => ?_)
    simp only [ModuleDecl.texts, List.mem_append, List.mem_flatMap]
    exact .inl (.inl (.inr ⟨p, hp, hs⟩))
  · have hname := w.within_qualified (hm u (by simp [ModuleDecl.texts, hu]))
    simp only [Text.within_append]
    exact ⟨⟨w.fixed (by decide), hname⟩, w.fixed (by decide)⟩
  · exact hservice p hp

theorem moduleWrite (h : Strokes w fits L C R) (h' : Strokes w fits L C R')
    (hopen : Turns fits L .opening R R') (hclose : Turns fits L .closing R' R) (hL : ∀ l, L l l)
    {annotations : List String} (ha : ∀ a ∈ annotations, Within w.letter a) {m : ModuleDecl}
    (hm : w.Holds m.texts) {b b' : Bench σ} (hb : R b b') :
    R { b with draft := ModuleSketch.write annotations m b.draft }
      { b' with draft := ModuleSketch.write annotations m b'.draft } := by
  have hannotations : ∀ s ∈ annotations.map annotationText, fits s := by
    intro s hs
    obtain ⟨a, ha', rfl⟩ := List.mem_map.mp hs
    exact h.fits_of_within _ (annotationText_holds (ha a ha'))
  have hhead : Within w.letter ((if m.isOpen then "open " else "") ++ "module " ++ m.name) := by
    have hword : Within w.letter (if m.isOpen then "open " else "") := by
      split <;> exact w.fixed (by decide)
    simp only [Text.within_append]
    exact ⟨⟨hword, w.fixed (by decide)⟩, hm _ (by simp [ModuleDecl.texts])⟩
  have h₁ := h.writeLines (hL 0) hannotations hb
  have h₂ := hopen.writeOpening (hL 0) (h.fits_of_within _ hhead) h₁
  have h₃ := h'.writeLines (hL 1) (fun s hs => h.fits_of_within _ (within_directives hm s hs)) h₂
  have h₄ := hclose.writeClosing (hL 0) (h.fixed (by decide)) h₃
  exact h₄

end Modules

end Strokes

namespace Steps

variable {σ : Type} {w : Wording} {L : Nat → Nat → Prop} {C : ClassDecl → Prop}
  {R : Bench σ → Bench σ → Prop} {level level' : Nat}

theorem header (h : Steps w L C R) (hL : L level level') (k : Kit σ) {n : ClassNode}
    (hC : C n.decl) (hn : w.Holds n.texts) :
    Keeps R Anyhow (Header.sketch k n level) (Header.sketch k n level') :=
  fun _ _ hb => ⟨trivial, h.toStrokes.header (h.turns _) hL k hC hn hb⟩

theorem closingBrace (h : Steps w L C R) (hL : L level level') (n : ClassNode) {b b' : Bench σ}
    (hb : R b b') :
    R { b with draft := TypeSketch.closingBrace n level b.draft }
      { b' with draft := TypeSketch.closingBrace n level' b'.draft } :=
  h.toStrokes.closingBrace (h.turns _) hL n hb

theorem moduleWrite (h : Steps w L C R) (hL : ∀ l, L l l) {annotations : List String}
    (ha : ∀ a ∈ annotations, Within w.letter a) {m : ModuleDecl} (hm : w.Holds m.texts)
    {b b' : Bench σ} (hb : R b b') :
    R { b with draft := ModuleSketch.write annotations m b.draft }
      { b' with draft := ModuleSketch.write annotations m b'.draft } :=
  h.toStrokes.moduleWrite h.toStrokes (h.turns _) (h.turns _) hL ha hm hb

end Steps

end ClassSketch
