import ClassSketch.Proofs.LinePositions
import ClassSketch.Proofs.Provenance
import ClassSketch.Proofs.ShortNames
import ClassSketch.Proofs.Tables
import ClassSketch.Render.Scripted

/-! Braces in a file. Where no name, no constant and no body holds a brace, the braces of a file are
those of heads and of the line map, and those of escapes in literals. While a file is drafted, each
brace that is open belongs to a class or a method that is not yet written to its end. -/

namespace ClassSketch

open Text (Within)

namespace Text

/-- After `d` open braces a text closes none that is not open, and leaves `e` open. -/
structure Nests (d e : Nat) (cs : List Char) : Prop where
  closes : ∀ q, q <+: cs → q.count '\x7d' ≤ d + q.count '\x7b'
  leaves : d + cs.count '\x7b' = e + cs.count '\x7d'

/-- A text whose braces are well nested. -/
def WellNested (s : String) : Prop := Nests 0 0 s.toList

def isBrace (c : Char) : Bool := c == '\x7b' || c == '\x7d'

/-- A text without braces. -/
def Unbraced (s : String) : Prop := Within (fun c => isBrace c = false) s

instance (s : String) : Decidable (Unbraced s) := inferInstanceAs (Decidable (Within _ s))

section Nesting

variable {d e f : Nat} {cs ds : List Char}

theorem Nests.append (h : Nests d e cs) (h' : Nests e f ds) : Nests d f (cs ++ ds) := by
  refine ⟨fun q hq => ?_, ?_⟩
  · obtain ⟨t, ht⟩ := hq
    rcases List.append_eq_append_iff.mp ht with ⟨r, hr, _⟩ | ⟨r, rfl, hr⟩
    · exact h.closes q ⟨r, hr.symm⟩
    · have hfirst := h.leaves
      have hsecond := h'.closes r ⟨t, hr.symm⟩
      rw [List.count_append, List.count_append]
      omega
  · have hfirst := h.leaves
    have hsecond := h'.leaves
    rw [List.count_append, List.count_append]
    omega

theorem Nests.deeper (h : Nests d e cs) (n : Nat) : Nests (n + d) (n + e) cs := by
  refine ⟨fun q hq => ?_, ?_⟩
  · have hcloses := h.closes q hq
    omega
  · have hleaves := h.leaves
    omega

theorem nests_of_unbraced (h : ∀ c ∈ cs, isBrace c = false) : Nests d d cs := by
  have hnone : ∀ q : List Char, (∀ c ∈ q, isBrace c = false) →
      q.count '\x7b' = 0 ∧ q.count '\x7d' = 0 := fun q hq =>
    ⟨List.count_eq_zero.mpr fun hc => absurd (hq _ hc) (by decide),
      List.count_eq_zero.mpr fun hc => absurd (hq _ hc) (by decide)⟩
  refine ⟨fun q hq => ?_, ?_⟩
  · rw [(hnone q fun c hc => h c (hq.subset hc)).2]
    exact Nat.zero_le _
  · rw [(hnone cs h).1, (hnone cs h).2]

theorem nests_nil : Nests d d [] := nests_of_unbraced fun _ h => by cases h

theorem nests_open : Nests d (d + 1) ['\x7b'] := by
  refine ⟨fun q hq => ?_, rfl⟩
  have hle := hq.sublist.count_le '\x7d'
  exact hle.trans (Nat.zero_le _)

theorem nests_close : Nests (d + 1) d ['\x7d'] := by
  refine ⟨fun q hq => ?_, rfl⟩
  have hle : q.count '\x7d' ≤ 1 := hq.sublist.count_le '\x7d'
  omega

theorem Unbraced.nests {s : String} (h : Unbraced s) (d : Nat) : Nests d d s.toList :=
  nests_of_unbraced h

theorem Unbraced.wellNested {s : String} (h : Unbraced s) : WellNested s := h.nests 0

theorem WellNested.nests {s : String} (h : WellNested s) (d : Nat) : Nests d d s.toList :=
  Nests.deeper h d

theorem WellNested.append {s t : String} (hs : WellNested s) (ht : WellNested t) :
    WellNested (s ++ t) := by
  rw [WellNested, String.toList_append]
  exact Nests.append hs ht

theorem wellNested_flatMap {α : Type} {f : α → List Char} {as : List α}
    (h : ∀ a ∈ as, Nests 0 0 (f a)) : Nests 0 0 (as.flatMap f) := by
  induction as with
  | nil => exact nests_nil
  | cons a as ih =>
    rw [List.flatMap_cons]
    exact (h a List.mem_cons_self).append (ih fun b hb => h b (List.mem_cons_of_mem _ hb))

theorem wellNested_join {ss : List String} (h : ∀ s ∈ ss, WellNested s) :
    WellNested (String.join ss) := by
  rw [WellNested, String.toList_join]
  exact wellNested_flatMap h

theorem wellNested_intercalate {sep : String} {ss : List String} (hsep : WellNested sep)
    (h : ∀ s ∈ ss, WellNested s) : WellNested (sep.intercalate ss) := by
  induction ss with
  | nil =>
    have hempty : Unbraced "" := by decide
    exact hempty.wellNested
  | cons s ss ih =>
    have hs := h s List.mem_cons_self
    have hss := ih fun t ht => h t (List.mem_cons_of_mem _ ht)
    cases ss with
    | nil =>
      rw [String.intercalate_singleton]
      exact hs
    | cons t ss =>
      rw [String.intercalate_cons_cons]
      exact (hs.append hsep).append hss

theorem nests_openAfterQuote : Nests d (d + 1) "' \x7b".toList := by
  have hquote : Unbraced "' " := by decide
  exact (hquote.nests d).append nests_open

end Nesting

end Text

open Text (Nests WellNested Unbraced)

/-- Names without braces. Literals may have some. -/
def Wording.unbraced : Wording where
  letter c := Text.isBrace c = false
  good _ := True
  letter_of_isPlain c h := by
    rw [Text.isBrace, Bool.or_eq_false_iff, beq_eq_false_iff_ne, beq_eq_false_iff_ne]
    constructor <;>
    · rintro rfl
      revert h
      decide
  good_of_within _ _ := trivial
  good_append _ _ _ _ := trivial
  good_literal _ _ := trivial

section Literals

/-- A constant whose literal shows no brace of its own. -/
def Constant.Unbraced : Constant → Prop
  | .int value => value ≠ 123 ∧ value ≠ 125
  | .text value => Text.Unbraced value
  | _ => True

theorem unbraced_of_isPlain {s : String} (h : ∀ c ∈ s.toList, Text.isPlain c = true) : Unbraced s :=
  fun c hc => Wording.unbraced.letter_of_isPlain c (h c hc)

theorem unbraced_charLiteral {value : Int32} (h : value ≠ 123 ∧ value ≠ 125) :
    Unbraced (Constant.charLiteral value) := by
  rw [Constant.charLiteral]
  split
  · next hchar =>
    have hcode : value.toUInt32.toNat = (Char.ofNat value.toUInt32.toNat).toNat := by
      simpa using (Bool.and_eq_true_iff.mp hchar).1
    generalize Char.ofNat value.toUInt32.toNat = c at hcode
    have hvalue : ∀ n : Int32, c.toNat = n.toUInt32.toNat → value = n := fun n hn =>
      Int32.toBitVec_inj.mp (congrArg UInt32.toBitVec (UInt32.toNat_inj.mp (hcode.trans hn)))
    have hbrace : Text.isBrace c = false := by
      rw [Text.isBrace, Bool.or_eq_false_iff, beq_eq_false_iff_ne, beq_eq_false_iff_ne]
      constructor
      · rintro rfl
        exact h.1 (hvalue 123 rfl)
      · rintro rfl
        exact h.2 (hvalue 125 rfl)
    have hquote : Unbraced "'" := by decide
    rw [Unbraced, Text.within_ofList]
    exact List.forall_mem_cons.mpr ⟨hquote '\'' List.mem_cons_self,
      List.forall_mem_cons.mpr ⟨hbrace, hquote⟩⟩
  · have hdigits : Unbraced (String.ofList (Text.hexPadded 4 value.toUInt32.toNat)) := by
      refine unbraced_of_isPlain fun c hc => ?_
      rw [String.toList_ofList, Text.hexPadded, List.mem_append] at hc
      rcases hc with hc | hc
      · rw [(List.mem_replicate.mp hc).2]
        decide
      · exact Text.isPlain_of_mem_toDigits hc
    exact Text.within_append.mpr ⟨Text.within_append.mpr ⟨by decide, hdigits⟩, by decide⟩

/-- The braces of an escape belong together. -/
theorem wellNested_quoted {s : String} (h : Unbraced s) : WellNested (Text.quoted s) := by
  have hchar : ∀ c : Char, Text.isBrace c = false → Nests 0 0 (Text.quotedChar c) := by
    intro c hc
    have hplain : ∀ cs : List Char, (cs.all fun c => !Text.isBrace c) = true → Nests 0 0 cs := by
      intro cs hcs
      exact Text.nests_of_unbraced fun c hc =>
        Bool.not_eq_true' _ ▸ List.all_eq_true.mp hcs c hc
    rw [Text.quotedChar]
    split_ifs
    iterate 6 exact hplain _ (by decide)
    · exact hplain _ (by simp [hc])
    · have hdigits : Nests 1 1 (Text.hex c.toNat) := Text.nests_of_unbraced fun d hd =>
        Wording.unbraced.letter_of_isPlain d (Text.isPlain_of_mem_toDigits hd)
      have hword : Unbraced "\\u" := by decide
      exact (((hword.nests 0).append Text.nests_open).append hdigits).append Text.nests_close
  have hquote : Unbraced "\"" := by decide
  rw [Text.quoted, WellNested, String.toList_ofList]
  exact ((hquote.nests 0).append (Text.wellNested_flatMap fun c hc => hchar c (h c hc))).append
    (hquote.nests 0)

theorem Constant.Unbraced.wellNested_literal {c : Constant} (h : c.Unbraced)
    (kind : Option Primitive) : WellNested (c.literal kind) := by
  have hint : ∀ n : Int, Text.Unbraced (toString n) :=
    fun n => unbraced_of_isPlain fun _ => Text.isPlain_of_mem_toString
  have hfloat : ∀ f bits, Text.Unbraced (Decimal.floatText f bits) :=
    fun f bits => unbraced_of_isPlain fun _ => Decimal.isPlain_of_mem_floatText
  have hword : ∀ s : String, s.toList.all Text.isPlain = true → Text.Unbraced s :=
    fun s hs => Wording.unbraced.fixed hs
  cases c with
  | int v =>
    refine Text.Unbraced.wellNested ?_
    simp only [Constant.literal]
    split
    · split <;> decide
    · exact unbraced_charLiteral h
    · exact hint _
  | long v => exact (hint _).wellNested.append (hword "L" (by decide)).wellNested
  | float v => exact (hfloat _ _).wellNested.append (hword "f" (by decide)).wellNested
  | double v => exact (hfloat _ _).wellNested
  | text s => exact wellNested_quoted h

end Literals

section LineMaps

structure Text.Layout.Unbraced (l : Text.Layout) : Prop where
  indent : Text.Unbraced l.indent
  separator : Text.Unbraced l.separator

theorem Text.Layout.Unbraced.indentText {l : Text.Layout} (hl : l.Unbraced) (level : Nat) :
    Text.Unbraced (l.indentText level) :=
  Text.within_indentText hl.indent level

namespace LineMap

/-- No class and no method is filed under a name with a brace. -/
structure Unbraced (m : LineMap) : Prop where
  classes : ∀ e ∈ m.classes, Text.Unbraced e.1
  methods : ∀ e ∈ m.classes, ∀ f ∈ e.2, Text.Unbraced f.1

theorem Unbraced.add {m : LineMap} (h : m.Unbraced) {name key : String} (hname : Text.Unbraced name)
    (hkey : Text.Unbraced key) (t : Trace) : (m.add name key t).Unbraced := by
  have hmethods : ∀ methods : Table String OffsetTable, (∀ e ∈ methods, Text.Unbraced e.1) →
      ∀ e ∈ methods.alter key (fun table => Table.absorb (table.getD []) t.offsets),
        Text.Unbraced e.1 :=
    fun methods hall => Table.forall_keys_alter (P := Text.Unbraced) hall hkey _
  refine ⟨Table.forall_keys_alter (P := Text.Unbraced) h.classes hname _, ?_⟩
  exact Table.forall_values_alter
    (P := fun methods : Table String OffsetTable => ∀ e ∈ methods, Text.Unbraced e.1) h.methods name
    (hmethods [] (List.forall_mem_nil _)) hmethods

theorem unbraced_rowText {l : Text.Layout} (hl : l.Unbraced) (row : Nat × Nat) :
    Text.Unbraced (rowText l row) := by
  have hcolumn : Text.Unbraced (hexColumn row.1) := by
    refine unbraced_of_isPlain fun c hc => ?_
    rw [hexColumn, String.toList_ofList, List.mem_append] at hc
    rcases hc with hc | hc
    · exact Text.isPlain_of_mem_toDigits hc
    · rw [(List.mem_replicate.mp hc).2]
      decide
  have hline : Text.Unbraced (toString row.2) := Wording.unbraced.within_toString row.2
  simp only [rowText, Text.Unbraced, Text.within_append]
  exact ⟨⟨⟨⟨hl.indentText 2, hcolumn⟩, hl.indentText 2⟩, hline⟩, hl.separator⟩

theorem wellNested_methodText {l : Text.Layout} (hl : l.Unbraced) {key : String}
    (hkey : Text.Unbraced key) (table : OffsetTable) : WellNested (methodText l key table) := by
  have hrows : Text.Unbraced (String.join (table.map (rowText l))) := by
    refine Text.within_join fun s hs => ?_
    obtain ⟨row, _, rfl⟩ := List.mem_map.mp hs
    exact unbraced_rowText hl row
  have hword : Text.Unbraced "method '" := by decide
  have hhead := ((hl.indent.nests 0).append (hword.nests 0)).append (hkey.nests 0)
  have hinside := ((hhead.append Text.nests_openAfterQuote).append (hl.separator.nests 1)).append
    (hrows.nests 1)
  simp only [methodText, Text.WellNested, String.toList_append]
  exact ((hinside.append (hl.indent.nests 1)).append Text.nests_close).append (hl.separator.nests 0)

theorem wellNested_classText {l : Text.Layout} (hl : l.Unbraced) {name : String}
    (hname : Text.Unbraced name) {methods : Table String OffsetTable}
    (hmethods : ∀ e ∈ methods, Text.Unbraced e.1) : WellNested (classText l name methods) := by
  have hshown : WellNested (l.separator.intercalate
      ((methods.filter fun e => !e.2.isEmpty).map fun e => methodText l e.1 e.2)) := by
    refine Text.wellNested_intercalate hl.separator.wellNested fun s hs => ?_
    obtain ⟨e, he, rfl⟩ := List.mem_map.mp hs
    exact wellNested_methodText hl (hmethods e (List.mem_filter.mp he).1) e.2
  have hword : Text.Unbraced "class '" := by decide
  have hhead := ((hword.nests 0).append (hname.nests 0)).append Text.nests_openAfterQuote
  have hinside := (hhead.append (hl.separator.nests 1)).append (hshown.nests 1)
  rw [classText, Text.WellNested]
  simp only [String.toList_append]
  exact ((hinside.append Text.nests_close).append (hl.separator.nests 0)).append
    (hl.separator.nests 0)

theorem Unbraced.wellNested_render {m : LineMap} (h : m.Unbraced) {l : Text.Layout}
    (hl : l.Unbraced) : WellNested (m.render l) := by
  have hnumber : ∀ n : Nat, Text.Unbraced (toString n) :=
    fun n => Wording.unbraced.within_toString n
  have hempty : Text.Unbraced "" := by decide
  have hlines : Text.Unbraced (if m.sourceLines.isEmpty then "" else
      "Lines mapping:" ++ l.separator ++ String.join (m.sourceLines.map fun row =>
        toString row.2 ++ " <-> " ++ toString (row.1 + m.shift) ++ l.separator)) := by
    split
    · exact hempty
    · refine Text.within_append.mpr ⟨Text.within_append.mpr ⟨by decide, hl.separator⟩,
        Text.within_join fun s hs => ?_⟩
      obtain ⟨row, _, rfl⟩ := List.mem_map.mp hs
      simp only [Text.within_append]
      exact ⟨⟨⟨hnumber _, by decide⟩, hnumber _⟩, hl.separator⟩
  refine WellNested.append (Text.wellNested_join fun s hs => ?_) hlines.wellNested
  obtain ⟨e, he, rfl⟩ := List.mem_map.mp hs
  obtain ⟨c, hc, rfl⟩ := List.mem_map.mp he
  refine wellNested_classText hl (h.classes c hc) fun f hf => ?_
  obtain ⟨g, hg, rfl⟩ := List.mem_map.mp hf
  exact h.methods c hc g hg

end LineMap

end LineMaps

section Drafts

theorem Stroke.nests_render {l : Text.Layout} (hl : l.Unbraced) {s : Stroke}
    (hs : WellNested s.text) {d e : Nat} (hbrace : Nests d e (s.brace.elim "" Brace.text).toList)
    (level : Nat) : Nests d e (s.render l level).toList := by
  have hempty : Unbraced "" := by decide
  have hstart : Unbraced (if s.starts then l.indentText level else "") := by
    split
    · exact hl.indentText level
    · exact hempty
  have hstop : Unbraced (if s.ends then l.separator else "") := by
    split
    · exact hl.separator
    · exact hempty
  simp only [render, String.toList_append]
  exact (((hstart.nests d).append (hs.nests d)).append hbrace).append (hstop.nests e)

theorem Brace.nests_opening (d : Nat) : Nests d (d + 1) opening.text.toList := by
  have hblank : Unbraced " " := by decide
  exact (hblank.nests d).append Text.nests_open

theorem Brace.nests_closing (d : Nat) : Nests (d + 1) d closing.text.toList := Text.nests_close

/-- The names that imports show have no braces. -/
structure Imports.Unbraced (i : Imports) : Prop where
  package : Text.Unbraced i.package
  imported : ∀ s ∈ i.imported, Text.Unbraced s

theorem Imports.Unbraced.shortName {i : Imports} (h : i.Unbraced) {name : String}
    (hn : Text.Unbraced name) : (Imports.shortName name i).2.Unbraced := by
  have hanswered := answered_shortName name i
  refine ⟨hanswered.extended.package_eq ▸ h.package, fun s hs => ?_⟩
  rcases (hanswered.mem_imported s).mp hs with ⟨_, _, rfl⟩ | hs
  · exact Wording.unbraced.within_dottedPackage (Name.within_topLevel hn)
  · exact h.imported s hs

namespace Draft

/-- A draft with as many open braces as the depth says. -/
structure Braced (l : Text.Layout) (depth : Nat) (d : Draft) : Prop where
  layout : d.buffer.layout = l
  text : Nests 0 depth d.buffer.text.toList
  imports : d.imports.Unbraced
  filed : d.lineMap.Unbraced

namespace Braced

variable {l : Text.Layout} {depth e : Nat} {d : Draft}

theorem extend (h : d.Braced l depth) {s : String} (hs : Nests depth e s.toList) {d' : Draft}
    (hbuffer : d'.buffer = d.buffer.append s) (himports : d'.imports = d.imports)
    (hfiled : d'.lineMap = d.lineMap) : d'.Braced l e := by
  refine ⟨?_, ?_, himports ▸ h.imports, hfiled ▸ h.filed⟩
  · rw [hbuffer]
    exact h.layout
  · rw [hbuffer, Text.Buffer.append, String.toList_append]
    exact h.text.append hs

theorem draw (h : d.Braced l depth) (hl : l.Unbraced) {s : Stroke} (hs : WellNested s.text)
    (hbrace : Nests depth e (s.brace.elim "" Brace.text).toList) (level : Nat) :
    (d.draw level s).Braced l e := by
  refine h.extend (s := s.render d.buffer.layout level) ?_ rfl rfl rfl
  rw [h.layout]
  exact Stroke.nests_render hl hs hbrace level

theorem filled (h : d.Braced l depth) (hl : l.Unbraced) {text : String} (ht : Unbraced text) :
    (MethodSketch.filled text d).Braced l depth := by
  have hline := Text.within_append.mpr ⟨ht, hl.separator⟩
  rw [MethodSketch.filled]
  split
  · exact h
  · rw [MethodSketch.writeBody]
    split
    · exact h.extend (ht.nests depth) rfl rfl rfl
    · refine h.extend (s := text ++ l.separator) (Unbraced.nests hline depth) ?_ rfl rfl
      simp only [Draft.endLine, Draft.appendText, Text.Buffer.endLine, Text.Buffer.append,
        h.layout, String.append_assoc]

theorem closed {σ : Type} {k : Kit σ} (h : d.Braced l (depth + 1)) (hl : l.Unbraced)
    (site : BodySite) (hname : Unbraced site.decl.name) (hkey : Unbraced site.method.key)
    (trace : Trace) (level : Nat) : (MethodSketch.closed k site trace level d).Braced l depth := by
  have hempty : Unbraced "" := by decide
  have hdrawn : (d.writeLine level "\x7d").Braced l depth := by
    rw [Draft.writeLine_close_eq_draw]
    exact h.draw hl (s := { brace := some .closing }) hempty.wellNested
      (Brace.nests_closing depth) level
  exact ⟨hdrawn.layout, hdrawn.text, hdrawn.imports, h.filed.add hname hkey _⟩

theorem settle {σ : Type} {k : Kit σ} {v : Visit} (h : d.Braced l (depth + 1)) (hl : l.Unbraced)
    (hname : Unbraced v.node.decl.name) (hkey : Unbraced v.method.key)
    {r : MethodSketch.Rendered} (ht : ∀ s, r.text = some s → Unbraced s)
    (hshown : MethodSketch.fate k v r.text ≠ .hidden) :
    (MethodSketch.settle k v r d).Braced l depth := by
  rw [MethodSketch.settle]
  cases hr : r.text with
  | none =>
    have hplaceholder : Unbraced placeholder := by decide
    have hdrawn : (d.writeLine (v.level + 1) placeholder).Braced l (depth + 1) := by
      rw [Draft.writeLine_eq_draw]
      exact h.draw hl (s := .line placeholder) hplaceholder.wellNested
        Text.nests_nil _
    exact hdrawn.closed hl (v.site k.options) hname hkey _ _
  | some text =>
    rw [hr] at hshown
    dsimp only
    rw [if_neg hshown]
    exact (h.filled hl (ht text hr)).closed hl (v.site k.options) hname hkey _ _

end Braced

end Draft

end Drafts

section Runs

variable {σ : Type}

/-- What the renderer gives has no braces; bodies may also fail. -/
structure Kit.Unbraced (k : Kit σ) : Prop where
  layout : k.options.layout.Unbraced
  body : ∀ site t memory body, site.layout = k.options.layout →
    (k.renderer.body site t memory).1.1 = .ok body → body.flagged = false → Text.Unbraced body.text
  initializer : ∀ c f s, k.renderer.initializer c f = some s → Text.Unbraced s
  parameterName : ∀ c m i s, k.renderer.parameterName c m i = some s → Text.Unbraced s

/-- The constants of a class show no braces of their own. -/
def ClassDecl.ShowsNoBrace (c : ClassDecl) : Prop :=
  ∀ f ∈ c.fields, ∀ v, f.constant = some v → v.Unbraced

/-- The names that a method is filed under have no braces. -/
def Visit.Unbraced (v : Visit) : Prop :=
  Text.Unbraced v.node.decl.name ∧ Text.Unbraced v.method.key

namespace Kit.Unbraced

variable {k : Kit σ}

theorem worded (hk : k.Unbraced) : k.Worded .unbraced :=
  ⟨fun _ _ _ _ => trivial, hk.parameterName⟩

theorem values (hk : k.Unbraced) {c : ClassDecl} (hc : c.ShowsNoBrace) {f : FieldDecl}
    (hf : f ∈ c.fields) : k.Values WellNested c f := by
  refine ⟨fun s hs => (hk.initializer c f s hs).wellNested, fun t => ?_⟩
  have hdefault : WellNested (FieldSketch.defaultValue t) := by
    refine Text.Unbraced.wellNested ?_
    rw [FieldSketch.defaultValue.eq_def]
    split
    · next p => cases p <;> decide
    · decide
  rw [FieldSketch.initialValue]
  cases hi : k.renderer.initializer c f with
  | some s => exact (hk.initializer c f s hi).wellNested
  | none =>
    rw [Option.none_or]
    split
    · cases hv : f.constant with
      | none => exact hdefault
      | some v => exact (hc f hf v hv).wellNested_literal _
    · exact hdefault

theorem rendered (hk : k.Unbraced) (v : Visit) (line : Nat) (memory : σ) :
    ∀ s, (MethodSketch.rendered k v line memory).text = some s → Text.Unbraced s := by
  have hbody := hk.body (v.site k.options) ⟨line, [], v.method.lineTable⟩ memory
  intro s hs
  rw [MethodSketch.rendered, MethodSketch.rendering] at hs
  generalize (k.renderer.body (v.site k.options) ⟨line, [], v.method.lineTable⟩ memory).1 = answer
    at hbody hs
  cases ha : answer.1 with
  | error failure =>
    rw [ha] at hs
    cases hs
  | ok body =>
    rw [ha] at hs
    dsimp only at hs
    split at hs
    · cases hs
    · next hflag =>
      cases hs
      exact hbody body rfl ha (Bool.eq_false_iff.mpr hflag)

/-- A state at the given depth, with a library of names without braces. -/
def Holds (l : Text.Layout) (depth : Nat) (b : Bench σ) : Prop :=
  b.draft.Braced l depth ∧ b.shop.genealogy.Worded .unbraced

theorem strokes (hk : k.Unbraced) (depth : Nat) :
    Strokes .unbraced WellNested Eq ClassDecl.ShowsNoBrace
      (Same (Holds (σ := σ) k.options.layout depth)) where
  fits_of_within _ hs := Text.Unbraced.wellNested hs
  fits_append _ _ hs ht := hs.append ht
  plain s hp hL hs hb := by
    obtain ⟨rfl, hd, hg⟩ := hb
    subst hL
    refine ⟨rfl, hd.draw hk.layout hs ?_ _, hg⟩
    rw [hp]
    exact Text.nests_nil
  naming name hn b b' hb := by
    obtain ⟨rfl, hd, hg⟩ := hb
    exact ⟨rfl, rfl, ⟨hd.layout, hd.text, hd.imports.shortName hn, hd.filed⟩, hg⟩
  signature c _ hc b b' hb := by
    obtain ⟨rfl, hd, hg⟩ := hb
    exact ⟨⟨rfl, (hg.signature hc).1⟩, rfl, hd, (hg.signature hc).2⟩
  overriding c m ps b b' hb := by
    obtain ⟨rfl, hd, hg⟩ := hb
    refine ⟨rfl, rfl, ?_, Override.genealogy_check c m ps Genealogy.Worded.stable hg⟩
    rw [Override.draft_check]
    exact hd

theorem opens (hk : k.Unbraced) (depth : Nat) : Turns WellNested Eq .opening
    (Same (Holds (σ := σ) k.options.layout depth))
    (Same (Holds k.options.layout (depth + 1))) := by
  rintro b _ level _ s hbrace rfl hs ⟨rfl, hd, hg⟩
  refine ⟨rfl, hd.draw hk.layout hs ?_ _, hg⟩
  rw [hbrace]
  exact Brace.nests_opening depth

theorem closes (hk : k.Unbraced) (depth : Nat) : Turns WellNested Eq .closing
    (Same (Holds (σ := σ) k.options.layout (depth + 1)))
    (Same (Holds k.options.layout depth)) := by
  rintro b _ level _ s hbrace rfl hs ⟨rfl, hd, hg⟩
  refine ⟨rfl, hd.draw hk.layout hs ?_ _, hg⟩
  rw [hbrace]
  exact Brace.nests_closing depth

/-- A body that is shown closes the brace of its head; with a hidden one the text goes back to
where no such brace was open. -/
theorem tracks (hk : k.Unbraced) :
    Tracks .unbraced WellNested Eq ClassDecl.ShowsNoBrace k k.renderer.body Visit.Unbraced
      (fun _ depth => Same (Holds k.options.layout depth)) where
  strokes _ depth := hk.strokes depth
  opens _ depth := hk.opens depth
  closes _ depth := hk.closes depth
  values _ hc _ hf := hk.values hc hf
  scope_eq hb := congrArg (·.draft.scope) hb.1
  scope_free := by
    rintro done depth b _ s ⟨rfl, hd, hg⟩
    exact ⟨rfl, ⟨hd.layout, hd.text, hd.imports, hd.filed⟩, hg⟩
  bodiless _ _ hb := hb
  body := by
    rintro done depth v _ head before _ b _ hP hbody rfl hhead ⟨rfl, hI, hg⟩ ⟨rfl, hJ, hg'⟩ hmap _
      hs
    have hopened : (b.draft.writeLine v.level (head ++ " \x7b")).Braced k.options.layout
        (depth + 1) := by
      rw [Draft.writeLine_open_eq_draw]
      exact hJ.draw hk.layout (s := { text := head, brace := some .opening })
        (Text.Unbraced.wellNested hhead.within) (Brace.nests_opening depth) _
    change Settles _ _ _ _ _ (MethodSketch.openBody k v head b)
    rw [MethodSketch.openBody_apply k v head hs]
    generalize b.draft.writeLine v.level (head ++ " \x7b") = d at hopened ⊢
    have htext := hk.rendered v d.line b.shop.memory
    have hshown := hopened.settle hk.layout hP.1 hP.2 htext (k := k)
    dsimp only
    generalize MethodSketch.rendered k v d.line b.shop.memory = r at hshown ⊢
    refine ⟨Iff.rfl, fun he => ⟨rfl, ⟨hI.layout, hI.text, ?_, ?_⟩, hg'⟩, fun hne => ⟨rfl, ?_⟩⟩
    · have hkept := MethodSketch.imports_settle k v r d
      exact hkept ▸ hopened.imports
    · have hkept := MethodSketch.lineMap_settle_of_hidden (d := d) he
      exact hkept ▸ hopened.filed
    · have hsettled := hshown hne
      generalize MethodSketch.fate k v r.text = o
      cases o with
      | failed => exact ⟨⟨hsettled.layout, hsettled.text, hsettled.imports, hsettled.filed⟩, hg'⟩
      | hidden => exact ⟨hsettled, hg'⟩
      | written => exact ⟨hsettled, hg'⟩

end Kit.Unbraced

end Runs

section Files

/-- The lines before a class have no braces. -/
theorem Draft.Braced.unbraced_fileHead {l : Text.Layout} {depth : Nat} {d : Draft}
    (h : d.Braced l depth) (hl : l.Unbraced) (c : ClassDecl) : Unbraced (d.fileHead c).text := by
  have hline : ∀ (b : Text.Buffer) (s : String), b.layout = l ∧ Unbraced b.text → Unbraced s →
      (b.appendLine 0 s).layout = l ∧ Unbraced (b.appendLine 0 s).text := by
    rintro b s ⟨rfl, hb⟩ hs
    refine ⟨rfl, ?_⟩
    simp only [Text.Buffer.appendLine, Text.Buffer.endLine, Text.Buffer.appendIndent,
      Text.Buffer.append, Text.Unbraced, Text.within_append]
    exact ⟨⟨⟨hb, hl.indentText 0⟩, hs⟩, hl.separator⟩
  have hstop : ∀ b : Text.Buffer, b.layout = l ∧ Unbraced b.text →
      b.endLine.layout = l ∧ Unbraced b.endLine.text := by
    rintro b ⟨rfl, hb⟩
    exact ⟨rfl, Text.within_append.mpr ⟨hb, hl.separator⟩⟩
  have himports : ∀ b : Text.Buffer, b.layout = l ∧ Unbraced b.text →
      Unbraced (d.imports.write b).text := by
    intro b hb
    rw [Imports.write]
    split
    · exact hb.2
    · refine (hstop _ (List.foldlRecOn (motive := fun b : Text.Buffer =>
        b.layout = l ∧ Unbraced b.text) _ _ hb fun b hb name hname => ?_)).2
      exact hline b _ hb (Text.within_append.mpr ⟨by decide, h.imports.imported name hname⟩)
  have hfork : d.buffer.fork.layout = l ∧ Unbraced d.buffer.fork.text :=
    ⟨h.layout, fun _ hc => by cases hc⟩
  rw [fileHead]
  refine himports _ ?_
  split
  · exact hfork
  · have hpackage : Unbraced ("package " ++ Name.dottedPackage d.imports.package) :=
      Text.within_append.mpr ⟨by decide, Wording.unbraced.within_dottedPackage h.imports.package⟩
    exact hstop _ (hline _ _ hfork hpackage)

theorem Draft.Braced.wellNested_finish {o : Options} (ho : o.layout.Unbraced) {d : Draft}
    (h : d.Braced o.layout 0) (c : ClassDecl) : WellNested (d.finish o c).1 := by
  have hclass : WellNested ((d.fileHead c).text ++ d.buffer.text) :=
    (h.unbraced_fileHead ho c).wellNested.append h.text
  have hfiled : (d.lineMap.shiftBy (d.fileHead c).lineCount).Unbraced :=
    ⟨h.filed.classes, h.filed.methods⟩
  rw [finish]
  split
  · exact (hclass.append ho.separator.wellNested).append (hfiled.wellNested_render ho)
  · exact hclass

namespace Kit.Unbraced

variable {σ : Type} {k : Kit σ} {l : Library} {t : ClassTree} {shop : Workshop σ}

/-- The draft of a file leaves no brace open. -/
theorem fileDraft (hk : k.Unbraced) (hl : ∀ c ∈ l.classes, c.ShowsNoBrace)
    (ht : ∀ n ∈ t.nodes, n.Stands .unbraced l) (hg : shop.genealogy.Worded .unbraced) :
    (shop.fileDraft k t).1.Braced k.options.layout 0 := by
  have hroot : t.root.Stands .unbraced l := ht t.root (Tree.value_mem_toList _)
  have hname : Text.Unbraced t.root.name := hroot.texts _ List.mem_cons_self
  have hstart : (Draft.ofRoot t.root.name k.options.layout).Braced k.options.layout 0 :=
    ⟨rfl, Text.nests_nil, ⟨Name.within_package hname, List.forall_mem_nil _⟩,
      ⟨List.forall_mem_nil _, List.forall_mem_nil _⟩⟩
  have htexts := ClassTree.texts_sprouted ht k.renderer
  have hdecls := ClassTree.decl_mem_sprouted ht k.renderer
  rw [Workshop.fileDraft]
  split
  · exact ((hk.strokes 0).writePackage rfl (t.root.decl_holds hroot.texts)
      (b := ⟨shop, .ofRoot t.root.name k.options.layout⟩) ⟨rfl, hstart, hg⟩).2.1
  · have hvisits : ∀ v ∈ TypeSketch.visits k 0 (t.sprouted k.renderer).tree, v.Unbraced := by
      intro v hv
      have hdecl := v.node.decl_holds (htexts v.node (TypeSketch.node_mem_of_mem_visits hv))
      have hmethod := v.node.decl.method_holds hdecl (TypeSketch.method_mem_of_mem_visits hv)
      refine ⟨v.node.decl.name_holds hdecl, ?_⟩
      exact Text.within_append.mpr ⟨Text.within_append.mpr
        ⟨hmethod _ (by simp [MethodDecl.texts]), by decide⟩,
        hmethod _ (by simp [MethodDecl.texts])⟩
    exact (hk.tracks.sketch hk.worded (fun _ _ h => congrArg (· + 1) h)
      (fun n hn => hl _ (hdecls n hn)) htexts (.inl fun _ => rfl) rfl hvisits [] 0
      ⟨shop.prepare (t.sprouted k.renderer).preparedClasses, .ofRoot t.root.name k.options.layout⟩ _
      ⟨rfl, hstart, hg⟩).2.1

theorem writeFile (hk : k.Unbraced) (hl : ∀ c ∈ l.classes, c.ShowsNoBrace)
    (ht : ∀ n ∈ t.nodes, n.Stands .unbraced l) (hg : shop.genealogy.Worded .unbraced) :
    WellNested (shop.writeFile k t).1.text ∧
      (shop.writeFile k t).2.2.genealogy.Worded .unbraced := by
  refine ⟨?_, ?_⟩
  · rw [Workshop.text_writeFile]
    exact (hk.fileDraft hl ht hg).wellNested_finish hk.layout _
  · have hdraft := Workshop.worded_fileDraft hk.worded (ClassTree.texts_sprouted ht k.renderer) hg
    rw [Workshop.writeFile_apply]
    exact hdraft.release _

theorem writeFiles (hk : k.Unbraced) (hl : ∀ c ∈ l.classes, c.ShowsNoBrace) {ts : List ClassTree}
    (hts : ∀ t ∈ ts, ∀ n ∈ t.nodes, n.Stands .unbraced l)
    (hg : shop.genealogy.Worded .unbraced) :
    ∀ file ∈ (shop.writeFiles k ts).1, WellNested file.text := by
  induction ts generalizing shop with
  | nil => exact fun _ h => by cases h
  | cons t ts ih =>
    obtain ⟨hfile, hshop⟩ := hk.writeFile hl (hts t List.mem_cons_self) hg
    have hrest := ih (fun t ht => hts t (List.mem_cons_of_mem _ ht)) hshop
    rw [Workshop.writeFiles]
    generalize shop.writeFile k t = r at hfile hrest
    exact List.forall_mem_cons.mpr ⟨hfile, hrest⟩

end Kit.Unbraced

end Files

section Scripts

/-- Bodies and initial values without braces. -/
structure PreparedBodies.Unbraced (p : PreparedBodies) : Prop where
  bodies : ∀ e ∈ p.bodies, Text.Unbraced e.2
  initializers : ∀ e ∈ p.initializers, Text.Unbraced e.2

theorem PreparedBodies.Unbraced.render {p : PreparedBodies} (h : p.Unbraced) {site : BodySite}
    (hsite : site.layout.Unbraced) (t : Trace) : Text.Unbraced (p.render site t).1.text := by
  have hlayOut : ∀ (ss : List String) (es : List LineEntry) (t : Trace),
      (∀ s ∈ ss, Text.Unbraced s) → Text.Unbraced (layOut site ss es t).1 := by
    intro ss
    induction ss with
    | nil => exact fun _ _ _ _ hc => by cases hc
    | cons s ss ih =>
      intro es t hss
      have hrest := fun t => ih es.tail t fun s hs => hss s (List.mem_cons_of_mem _ hs)
      simp only [layOut, Text.Unbraced, Text.within_append]
      exact ⟨⟨⟨hsite.indentText _, hss s List.mem_cons_self⟩, hsite.separator⟩, hrest _⟩
  rw [PreparedBodies.render]
  split
  · exact fun _ hc => by cases hc
  · next source hsource =>
    obtain ⟨before, after, hsplit, _⟩ := List.lookup_eq_some_iff.mp hsource
    have hbody : Text.Unbraced source :=
      h.bodies (site.method.fullKey site.decl, source) (by simp [hsplit])
    exact hlayOut _ _ _ fun s hs c hc => hbody c (Text.mem_of_mem_lines hs hc).1

namespace Script

def kit (s : Script) (p : PreparedBodies) (o : Options) : Kit Memory := ⟨o, s.renderer p⟩

structure Unbraced (s : Script) : Prop where
  raw : ∀ e ∈ s.raw, Text.Unbraced e.2.text
  parameters : ∀ e ∈ s.parameters, ∀ name, some name ∈ e.2 → Text.Unbraced name

/-- With nothing in the script, all is taken from the prepared bodies. -/
theorem renderer_empty (p : PreparedBodies) : ({} : Script).renderer p = p.renderer Memory := rfl

variable {s : Script} {p : PreparedBodies} {o : Options}

theorem Unbraced.plainBody (hs : s.Unbraced) (hp : p.Unbraced) {site : BodySite}
    (hsite : site.layout.Unbraced) (t : Trace) : Text.Unbraced (s.plainBody p site t).1.text := by
  rw [Script.plainBody]
  split
  · next raw hraw =>
    obtain ⟨before, after, hsplit, _⟩ := List.lookup_eq_some_iff.mp hraw
    exact hs.raw (site.method.fullKey site.decl, raw) (by simp [hsplit])
  · exact hp.render hsite t

theorem Unbraced.kit (hs : s.Unbraced) (hp : p.Unbraced) (ho : o.layout.Unbraced) :
    (s.kit p o).Unbraced := by
  refine ⟨ho, fun site t memory body hsite hbody hflag => ?_, fun c f v hv => ?_,
    fun c m i name hname => ?_⟩
  · have hplain := hs.plainBody hp (hsite ▸ ho) t
    have hanswer : (s.body p site t memory).1.1 = .ok body := hbody
    rw [Script.body] at hanswer
    cases hm : s.mishaps.lookup site.method.name with
    | none =>
      rw [hm] at hanswer
      cases hanswer
      exact hplain
    | some mishap =>
      rw [hm] at hanswer
      cases mishap with
      | failed => cases hanswer
      | unsupported => cases hanswer
      | io => cases hanswer
      | crash m => cases hanswer
      | partialBody =>
        cases hanswer
        cases hflag
      | failedOnce =>
        dsimp only at hanswer
        split at hanswer
        · cases hanswer
          exact hplain
        · cases hanswer
  · obtain ⟨before, after, hsplit, _⟩ := List.lookup_eq_some_iff.mp hv
    exact hp.initializers (f.fullKey c, v) (by simp [hsplit])
  · have hnames : ((s.parameters.lookup (m.fullKey c)).getD [])[i]?.join = some name := hname
    cases hl : s.parameters.lookup (m.fullKey c) with
    | none =>
      rw [hl] at hnames
      cases hnames
    | some names =>
      obtain ⟨before, after, hsplit, _⟩ := List.lookup_eq_some_iff.mp hl
      rw [hl, Option.getD_some] at hnames
      have hmem := List.mem_of_getElem? (Option.join_eq_some_iff.mp hnames)
      exact hs.parameters (m.fullKey c, names) (by simp [hsplit]) name hmem

theorem files_of_unbraced {k : Kit Memory} (hk : k.Unbraced) {l : Library}
    (hl : l.Worded .unbraced)
    (hconstants : ∀ c ∈ l.classes, ∀ f ∈ c.fields, ∀ v, f.constant = some v → v.Unbraced)
    {policy : Renaming} (hpolicy : policy.Worded .unbraced) (memory : Memory)
    (written : List String) :
    let session := (Session.start k l memory policy).afterWrites written
    (∀ n ∈ session.forest.names, ∃ file later, session.write n = .ok (file, later) ∧
        WellNested file.text) ∧
      ∀ file ∈ session.writeAll.1, WellNested file.text := by
  obtain ⟨hsourced, hkit⟩ :=
    (Session.sourced_start (k := k) hl memory hpolicy).afterWrites written hk.worded
  intro session
  have hkit : session.kit = k := hkit
  have hsourced : session.Sourced .unbraced l := hsourced
  refine ⟨fun n hn => ?_, ?_⟩
  · obtain ⟨t, ht, hnt⟩ := Forest.mem_names.mp hn
    refine ⟨_, _, Session.write_of_mem_names hsourced.distinct ht hnt, ?_⟩
    rw [hkit]
    exact (hk.writeFile hconstants (hsourced.stands t ht) hsourced.genealogy).1
  · rw [Session.writeAll, hkit]
    exact hk.writeFiles hconstants hsourced.stands hsourced.genealogy

/-- If no text that a file may show holds a brace, then in every file, whatever was written before,
no brace is closed that is not open, and all are closed at the end. So it is where a script adds to
prepared bodies, and where there are prepared bodies alone. -/
theorem files_wellNested (o : Options) (ho : o.layout.Unbraced) (s : Script) (hs : s.Unbraced)
    (p : PreparedBodies) (hp : p.Unbraced) {l : Library} (hl : l.Worded .unbraced)
    (hconstants : ∀ c ∈ l.classes, ∀ f ∈ c.fields, ∀ v, f.constant = some v → v.Unbraced)
    {policy : Renaming} (hpolicy : policy.Worded .unbraced) (memory : Memory)
    (written : List String) :
    let session := (Session.start (s.kit p o) l memory policy).afterWrites written
    (∀ n ∈ session.forest.names, ∃ file later, session.write n = .ok (file, later) ∧
        WellNested file.text) ∧
      (∀ file ∈ session.writeAll.1, WellNested file.text) ∧
      let plain := (Session.start ⟨o, p.renderer Memory⟩ l memory policy).afterWrites written
      (∀ n ∈ plain.forest.names, ∃ file later, plain.write n = .ok (file, later) ∧
          WellNested file.text) ∧
        ∀ file ∈ plain.writeAll.1, WellNested file.text := by
  have hempty : ({} : Script).Unbraced := ⟨List.forall_mem_nil _, List.forall_mem_nil _⟩
  have hplain : (⟨o, p.renderer Memory⟩ : Kit Memory).Unbraced := by
    rw [← renderer_empty p]
    exact hempty.kit hp ho
  obtain ⟨hwrite, hall⟩ :=
    files_of_unbraced (hs.kit hp ho) hl hconstants hpolicy memory written
  exact ⟨hwrite, hall, files_of_unbraced hplain hl hconstants hpolicy memory written⟩

section Shapes

def corner : ClassDecl where
  name := "a/Shape$Corner"
  access := ⟨1⟩
  superclass := some "java/lang/Object"
  fields := [{ name := "mark", descriptor := "C", access := ⟨24⟩, constant := some (.int 120) },
    { name := "bell", descriptor := "Ljava/lang/String;", access := ⟨24⟩
      constant := some (.text "\x07") }]

def shape : ClassDecl where
  name := "a/Shape"
  access := ⟨17⟩
  superclass := some "java/lang/Record"
  recordParts := some [{ name := "sides", descriptor := "I" }]
  nesting := some [⟨"a/Shape$Corner", some "a/Shape", some "Corner", ⟨9⟩⟩]
  methods := [{ name := "toString", descriptor := "()Ljava/lang/String;", access := ⟨1⟩ },
    { name := "area", descriptor := "()D", access := ⟨1⟩ }]

def shapeBodies : PreparedBodies where
  bodies := [("a/Shape toString ()Ljava/lang/String;", "return this.toString<invokedynamic>(this)")]

def shapeScript : Script where
  mishaps := [("area", .failed)]

def shapeSession : Session Memory :=
  .start (shapeScript.kit shapeBodies { appendLineMap := true }) (.ofList [corner, shape]) {} .keep

/-- A record with a hidden method, a body that fails, a nested class and a literal with an
escape. -/
theorem files_wellNested_record :
    ∃ file later, shapeSession.write "a/Shape$Corner" = .ok (file, later) ∧
      file.failed = true ∧ WellNested file.text := by
  have hclasses : (Library.ofList [corner, shape]).classes = [corner, shape] := rfl
  have hpool : (Library.ofList [corner, shape]).pool = [] := rfl
  have hlib : (Library.ofList [corner, shape]).Worded .unbraced := by
    refine ⟨?_, ?_, by simp [hpool]⟩
    · rw [hclasses]
      exact (by decide : ∀ c ∈ [corner, shape], ∀ s ∈ c.texts, Text.Unbraced s)
    · rw [hclasses]
      exact (by decide : ∀ c ∈ [corner, shape], ∀ e ∈ c.nestingEntries,
        ∀ s ∈ e.simpleName.toList, Text.Unbraced s)
  have hconstants : ∀ c ∈ (Library.ofList [corner, shape]).classes, ∀ f ∈ c.fields, ∀ v,
      f.constant = some v → v.Unbraced := by
    have hbell : Text.Unbraced "\x07" := by decide
    have hmark : (120 : Int32) ≠ 123 ∧ (120 : Int32) ≠ 125 := by decide
    rw [hclasses]
    simp only [corner, shape, List.forall_mem_cons, Option.some.injEq, forall_eq']
    exact ⟨⟨hmark, hbell, List.forall_mem_nil _⟩, List.forall_mem_nil _, List.forall_mem_nil _⟩
  have hbodies : shapeBodies.Unbraced := ⟨by decide, by decide⟩
  have hscript : shapeScript.Unbraced := ⟨List.forall_mem_nil _, List.forall_mem_nil _⟩
  have hpolicy : Renaming.Worded .unbraced .keep := trivial
  have hfiles := files_wellNested { appendLineMap := true } ⟨by decide, by decide⟩ shapeScript
    hscript shapeBodies hbodies hlib hconstants hpolicy {} []
  have hname : "a/Shape$Corner" ∈ shapeSession.forest.names := by decide +kernel
  obtain ⟨file, later, hwrite, hnested⟩ := hfiles.1 "a/Shape$Corner" hname
  have hwrite : shapeSession.write "a/Shape$Corner" = .ok (file, later) := hwrite
  have hshown : (shapeSession.write "a/Shape$Corner").toOption.map
      (fun r => r.1.failed) = some true := by
    decide +kernel
  rw [hwrite] at hshown
  exact ⟨file, later, hwrite, Option.some.inj hshown, hnested⟩

end Shapes

end Script

end Scripts

end ClassSketch
