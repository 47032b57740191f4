import ClassSketch.Proofs.MethodLines
import ClassSketch.Proofs.NodeNumbers
import ClassSketch.Proofs.ParameterMasks
import ClassSketch.Proofs.Slices
import ClassSketch.Proofs.Tables

/-! Runs that are guarded. A guarded run works like a sketch, but it looks nodes and positions up by
number, takes text back by cutting it off at a byte position, and stops when one of these is out of
range or when a counter of lines reaches a limit. Here methods are written that way, and nothing
stops them but the limit, which they do not reach if it is above the lines that are left and what any
method loses. -/

namespace ClassSketch

/-- No offset stands below the line. -/
def OffsetTable.UpTo (top : Nat) (table : OffsetTable) : Prop := ∀ e ∈ table, e.2 ≤ top

theorem OffsetTable.UpTo.insertNew {table : OffsetTable} {top : Nat} (h : table.UpTo top)
    (offset : Nat) {line : Nat} (hline : line ≤ top) :
    OffsetTable.UpTo top (table.insertNew offset line) :=
  Table.forall_values_alter (P := (· ≤ top)) h offset hline fun _ ha => ha

theorem OffsetTable.UpTo.absorb {table other : OffsetTable} {top : Nat} (h : table.UpTo top)
    (hother : other.UpTo top) : OffsetTable.UpTo top (table.absorb other) :=
  Table.forall_values_absorb (P := (· ≤ top)) h hother

theorem Trace.sourceLines_upTo {t : Trace} {top : Nat} (h : t.offsets.UpTo top) :
    ∀ e ∈ t.sourceLines, e.1 ≤ top := by
  rw [Trace.sourceLines]
  refine List.foldlRecOn (motive := fun found : Table Nat Nat => ∀ e ∈ found, e.1 ≤ top) _ _
    (List.forall_mem_nil _) fun found hfound entry hentry => ?_
  obtain ⟨offset, line⟩ := entry
  dsimp only
  split
  · exact Table.forall_keys_alter (P := (· ≤ top)) hfound (h _ hentry) _
  · exact hfound

/-- No line of the map stands below the given one, and nothing is shifted yet. -/
structure LineMap.UpTo (top : Nat) (m : LineMap) : Prop where
  classes : ∀ c ∈ m.classes, ∀ table ∈ c.2, table.2.UpTo top
  sourceLines : ∀ e ∈ m.sourceLines, e.1 ≤ top
  shift_eq : m.shift = 0

namespace LineMap

variable {m : LineMap} {top : Nat}

theorem UpTo.mono {top' : Nat} (h : m.UpTo top) (hle : top ≤ top') : m.UpTo top' where
  classes c hc table ht e he := Nat.le_trans (h.classes c hc table ht e he) hle
  sourceLines e he := Nat.le_trans (h.sourceLines e he) hle
  shift_eq := h.shift_eq

theorem UpTo.add (h : m.UpTo top) (className key : String) {t : Trace} (ht : t.offsets.UpTo top) :
    (m.add className key t).UpTo top := by
  have hempty : OffsetTable.UpTo top [] := List.forall_mem_nil _
  have hmethods : ∀ methods : Table String OffsetTable, (∀ table ∈ methods, table.2.UpTo top) →
      ∀ table ∈ methods.alter key (fun table => Table.absorb (table.getD []) t.offsets),
        OffsetTable.UpTo top table.2 :=
    fun methods hall => Table.forall_values_alter (P := OffsetTable.UpTo top) hall key
      (hempty.absorb ht) fun _ htable => htable.absorb ht
  have hlines := Table.forall_keys_absorb (P := (· ≤ top)) h.sourceLines (t.sourceLines_upTo ht)
  refine ⟨?_, hlines, h.shift_eq⟩
  exact Table.forall_values_alter
    (P := fun methods : Table String OffsetTable => ∀ table ∈ methods, table.2.UpTo top) h.classes
    className (hmethods [] (List.forall_mem_nil _)) hmethods

end LineMap

/-- Text was added, and lines with it. No line was counted that is not in the text. -/
structure Draft.Grows (d d' : Draft) : Prop where
  added : ∃ s, d'.buffer = d.buffer.append s ∧ (d.buffer.layout.separator ≠ "" →
    d'.line ≤ d.line + Text.countLines d.buffer.layout.separator s)
  line_le : d.line ≤ d'.line

/-- A stroke that ends a line has a separator. -/
theorem Stroke.lines_le {l : Text.Layout} (h : l.separator ≠ "") (level : Nat) (s : Stroke) :
    s.lines ≤ Text.countLines l.separator (s.render l level) := by
  rw [Stroke.lines, Stroke.render]
  split
  · exact Nat.le_trans (Nat.le_add_left _ _) (Text.countLines_append_self h _)
  · exact Nat.zero_le _

namespace Draft

theorem Grows.layout_eq {d d' : Draft} (h : d.Grows d') : d'.buffer.layout = d.buffer.layout := by
  obtain ⟨_, hs, _⟩ := h.added
  rw [hs]
  rfl

theorem Grows.page {d e e' : Draft} (h : d.Grows e) (hb : e'.buffer = e.buffer)
    (hline : e'.line = e.line) : d.Grows e' := by
  obtain ⟨s, hs, hcount⟩ := h.added
  exact ⟨⟨s, hb.trans hs, hline ▸ hcount⟩, hline ▸ h.line_le⟩

theorem Grows.refl (d : Draft) : d.Grows d := by
  refine ⟨⟨"", ?_, fun _ => Nat.le_add_right _ _⟩, Nat.le_refl _⟩
  rw [Text.Buffer.append, String.append_empty]

theorem Grows.trans {d₁ d₂ d₃ : Draft} (h : d₁.Grows d₂) (h' : d₂.Grows d₃) : d₁.Grows d₃ := by
  obtain ⟨s, hs, hcount⟩ := h.added
  obtain ⟨s', hs', hcount'⟩ := h'.added
  rw [h.layout_eq] at hcount'
  refine ⟨⟨s ++ s', ?_, fun hsep => ?_⟩, Nat.le_trans h.line_le h'.line_le⟩
  · rw [hs', hs]
    simp only [Text.Buffer.append, String.append_assoc]
  · have hlines := Text.countLines_append d₁.buffer.layout.separator s s'
    have hfirst := hcount hsep
    have hsecond := hcount' hsep
    omega

theorem grows_draw (level : Nat) (s : Stroke) (d : Draft) : d.Grows (d.draw level s) :=
  ⟨⟨_, rfl, fun h => Nat.add_le_add_left (s.lines_le h level) _⟩, Nat.le_add_right _ _⟩

theorem grows_writeLine (level : Nat) (s : String) (d : Draft) : d.Grows (d.writeLine level s) := by
  rw [writeLine_eq_draw]
  exact d.grows_draw level _

theorem grows_endLine (d : Draft) : d.Grows d.endLine := by
  rw [endLine_eq_draw 0]
  exact d.grows_draw 0 _

theorem grows_appendText (s : String) (d : Draft) : d.Grows (d.appendText s) :=
  ⟨⟨s, rfl, fun _ => Nat.le_refl _⟩, Nat.le_add_right _ _⟩

end Draft

/-- Runs with a limit to the lines that stop at whatever is out of range. -/
abbrev Guarded (σ : Type) := ReaderT Nat (StateT (Bench σ) Option)

namespace Guarded

variable {σ α β : Type}

def reach (line : Nat) : Guarded σ Unit := do
  guard (line < (← read))

/-- An action on the bench that looks nothing up by number. -/
def work (act : SketchM σ α) : Guarded σ α := do
  let (x, b) := act (← get)
  set b
  reach b.draft.line
  return x

def change (f : Draft → Option Draft) : Guarded σ Unit := do
  let b ← get
  let draft ← f b.draft
  set { b with draft }
  reach draft.line

def changeWhen (p : Bool) (f : Draft → Option Draft) : Guarded σ Unit :=
  if p then change f else return

def inScope (e : Element) (act : Guarded σ α) : Guarded σ α := fun limit b =>
  let (inside, aside) := b.draft.scope.enter e
  (act limit (Scoped.withScope b inside)).map fun (x, b) =>
    (x, Scoped.withScope b (b.draft.scope.leave aside))

theorem bind_apply (run : Guarded σ α) (f : α → Guarded σ β) (limit : Nat) (b : Bench σ) :
    (run >>= f) limit b = (run limit b).bind fun r => f r.1 limit r.2 := rfl

theorem reach_apply {line limit : Nat} (h : line < limit) (b : Bench σ) :
    reach line limit b = some ((), b) := by
  have hguard : (guard (line < limit) : Guarded σ Unit) = Pure.pure () := if_pos h
  change (guard (line < limit) : Guarded σ Unit) limit b = _
  rw [hguard]
  rfl

theorem work_apply {act : SketchM σ α} {limit : Nat} {b : Bench σ}
    (h : (act b).2.draft.line < limit) : work act limit b = some (act b) := by
  change (reach (act b).2.draft.line limit (act b).2).bind _ = _
  rw [reach_apply h]
  rfl

theorem change_apply {f : Draft → Option Draft} {limit : Nat} {b : Bench σ} {d : Draft}
    (hf : f b.draft = some d) (h : d.line < limit) :
    change f limit b = some ((), { b with draft := d }) := by
  have hrun : change f limit b = ((liftM (f b.draft) : Guarded σ Draft) limit b).bind
      fun r => reach r.1.line limit { b with draft := r.1 } := rfl
  rw [hrun, hf]
  exact reach_apply h _

end Guarded

/-- From the bench, a guarded run does what the action does if its limit is more than `slack` above the
line on which the action ends. No offset is put below that. -/
structure Agrees {σ α : Type} (slack : Nat) (act : SketchM σ α) (run : Guarded σ α) (b : Bench σ) :
    Prop where
  grows : b.draft.Grows (act b).2.draft
  lineMap : ∀ top, (act b).2.draft.line + slack ≤ top → b.draft.lineMap.UpTo top →
    (act b).2.draft.lineMap.UpTo top
  run_eq : ∀ limit, (act b).2.draft.line + slack < limit → run limit b = some (act b)

namespace Agrees

open Guarded

variable {σ α β : Type} {slack : Nat} {act : SketchM σ α} {run : Guarded σ α} {b : Bench σ}

theorem layout_eq (h : Agrees slack act run b) {l : Text.Layout} (hl : b.draft.buffer.layout = l) :
    (act b).2.draft.buffer.layout = l :=
  h.grows.layout_eq.trans hl

theorem pure (x : α) : Agrees slack (Pure.pure x) (Pure.pure x) b :=
  ⟨.refl _, fun _ _ hmap => hmap, fun _ _ => rfl⟩

theorem bind {f : α → SketchM σ β} {g : α → Guarded σ β} (h : Agrees slack act run b)
    (hf : Agrees slack (f (act b).1) (g (act b).1) (act b).2) :
    Agrees slack (act >>= f) (run >>= g) b := by
  have hle : (act b).2.draft.line ≤ (f (act b).1 (act b).2).2.draft.line := hf.grows.line_le
  refine ⟨h.grows.trans hf.grows, fun top htop hmap => ?_, fun limit hlimit => ?_⟩
  · have htop' : (f (act b).1 (act b).2).2.draft.line + slack ≤ top := htop
    exact hf.lineMap top htop (h.lineMap top (by omega) hmap)
  · have hlimit' : (f (act b).1 (act b).2).2.draft.line + slack < limit := hlimit
    rw [bind_apply, h.run_eq limit (by omega)]
    exact hf.run_eq limit hlimit

theorem get {f : Bench σ → SketchM σ β} {g : Bench σ → Guarded σ β}
    (h : Agrees slack (f b) (g b) b) :
    Agrees slack (MonadState.get >>= f) (MonadState.get >>= g) b :=
  ⟨h.grows, h.lineMap, h.run_eq⟩

theorem lookup {x : α} {found : Option α} {g : α → Guarded σ β} {act : SketchM σ β}
    (hfound : found = some x) (h : Agrees slack act (g x) b) :
    Agrees slack act (do g (← found)) b := by
  subst hfound
  exact ⟨h.grows, h.lineMap, h.run_eq⟩

theorem work (hgrows : b.draft.Grows (act b).2.draft)
    (hmap : ∀ top, (act b).2.draft.line + slack ≤ top → b.draft.lineMap.UpTo top →
      (act b).2.draft.lineMap.UpTo top) :
    Agrees slack act (Guarded.work act) b :=
  ⟨hgrows, hmap, fun _ hlimit => work_apply (by omega)⟩

theorem change {f : Draft → Option Draft} {g : Draft → Draft} (hf : f b.draft = some (g b.draft))
    (hgrows : b.draft.Grows (g b.draft)) (hmap : (g b.draft).lineMap = b.draft.lineMap) :
    Agrees slack (SketchM.edit g) (Guarded.change f) b := by
  refine ⟨hgrows, fun _ _ hb => hmap ▸ hb, fun limit hlimit => ?_⟩
  have hline : (g b.draft).line + slack < limit := hlimit
  exact change_apply hf (by omega)

theorem reach {line : Nat} (hline : line ≤ (act b).2.draft.line + slack)
    (h : Agrees slack act run b) : Agrees slack act (do Guarded.reach line; run) b := by
  refine ⟨h.grows, h.lineMap, fun limit hlimit => ?_⟩
  rw [bind_apply, reach_apply (by omega)]
  exact h.run_eq limit hlimit

theorem inScope {e : Element}
    (h : Agrees slack act run (Scoped.withScope b (b.draft.scope.enter e).1)) :
    Agrees slack (ClassSketch.inScope e act) (Guarded.inScope e run) b := by
  refine ⟨⟨h.grows.added, h.grows.line_le⟩, h.lineMap, fun limit hlimit => ?_⟩
  exact congrArg (Option.map fun r => (r.1,
    Scoped.withScope r.2 (r.2.draft.scope.leave (b.draft.scope.enter e).2))) (h.run_eq limit hlimit)

end Agrees

/-- Text was added to the bench, and nothing was put on the line map. -/
structure Bench.Since {σ : Type} (before b : Bench σ) : Prop where
  grows : before.draft.Grows b.draft
  lineMap_eq : b.draft.lineMap = before.draft.lineMap

theorem Bench.Since.refl {σ : Type} (b : Bench σ) : b.Since b := ⟨.refl _, rfl⟩

theorem steps_since {σ : Type} (before : Bench σ) :
    Steps Wording.any Eq (fun _ => True) (Same (before.Since)) where
  draw s hL _ hb := by
    obtain ⟨rfl, hsince⟩ := hb
    subst hL
    exact ⟨rfl, hsince.grows.trans (Draft.grows_draw _ s _), hsince.lineMap_eq⟩
  spelling name b b' hb := by
    obtain ⟨rfl, hsince⟩ := hb
    exact ⟨rfl, rfl, hsince.grows.page rfl rfl, hsince.lineMap_eq⟩
  signature c _ hc b b' hb := by
    obtain ⟨rfl, hsince⟩ := hb
    exact ⟨⟨rfl, fun x _ => x.worded_any⟩, rfl, hsince.grows, hsince.lineMap_eq⟩
  overriding c m ps b b' hb := by
    obtain ⟨rfl, hsince⟩ := hb
    have hdraft := Override.draft_check c m ps b
    exact ⟨rfl, rfl, hdraft ▸ hsince.grows, hdraft ▸ hsince.lineMap_eq⟩

namespace Agrees

variable {σ α : Type} {slack : Nat} {act : SketchM σ α} {b : Bench σ}

theorem of_since (h : b.Since (act b).2) : Agrees slack act (Guarded.work act) b :=
  .work h.grows fun _ _ hmap => h.lineMap_eq ▸ hmap

theorem of_keeps {Q : α → α → Prop} (h : Keeps (Same (b.Since)) Q act act) :
    Agrees slack act (Guarded.work act) b :=
  of_since (h b b ⟨rfl, .refl b⟩).2.2

end Agrees

namespace MethodSketch

variable {σ : Type}

def attempt (k : Kit σ) (v : Visit) (content : Bool) : SketchM σ Outcome := do
  SketchM.editWhen content Draft.endLine
  sketchOne k v.node v.method v.level

/-- What follows a method. -/
def settleNext (n : ClassNode) (content : Bool) (before : Draft) : Outcome → SketchM σ Bool
  | .hidden => do
    SketchM.edit (Draft.rewind before)
    return content
  | .written => return true
  | .failed => do
    SketchM.edit fun d => { d with failed := n.id :: d.failed }
    return true

theorem sketchNext_eq (k : Kit σ) (v : Visit) (content : Bool) :
    sketchNext k v content = (do
      let before := (← get).draft
      let outcome ← attempt k v content
      settleNext v.node content before outcome) := by
  funext b
  rw [sketchNext_apply]
  simp only [bind, StateT.bind, get, getThe, MonadStateOf.get, StateT.get, pure, attempt]
  rcases SketchM.editWhen content Draft.endLine b with ⟨_, b₁⟩
  dsimp only
  rcases sketchOne k v.node v.method v.level b₁ with ⟨o, b₂⟩
  cases o <;> rfl

end MethodSketch

namespace Guarded

open MethodSketch (Outcome)

variable {σ : Type}

def writeBody? (text : String) (d : Draft) : Option Draft := do
  let d' ← d.appendText? text
  return if Text.endsWith d.buffer.layout.separator text then d' else d'.endLine

def settleBody (k : Kit σ) (site : BodySite) (n : ClassNode) (m : MethodDecl) (visible level : Nat)
    (r : MethodSketch.Rendered) : Guarded σ Outcome := do
  match r.text with
  | none =>
    work (SketchM.edit (Draft.writeLine (level + 1) placeholder))
    work (MethodSketch.close k site r.trace level)
    return .failed
  | some text =>
    let blank := Text.isBlankText text
    if blank && MethodSketch.isHiddenWhenEmpty k.options n m visible then return .hidden
    else
      changeWhen (!blank) (writeBody? text)
      if n.decl.isRecord && MethodSketch.isGeneratedMember n.decl m text then return .hidden
      else
        work (MethodSketch.close k site r.trace level)
        return .written

/-- The body of a method. The renderer counts lines, too. -/
def sketchBody (k : Kit σ) (n : ClassNode) (m : MethodDecl) (visible level : Nat) :
    Guarded σ Outcome := do
  let current := (← get).draft.scope.className.getD n.decl.name
  let site : BodySite := ⟨n.decl, m, level + 1, k.options.layout, current⟩
  let rendered ← work (MethodSketch.renderBody k site)
  reach rendered.trace.line
  settleBody k site n m visible level rendered

def sketchOne (k : Kit σ) (n : ClassNode) (m : MethodDecl) (level : Nat) : Guarded σ Outcome :=
  inScope (.ofMethod m.key) do
    let s ← MethodShape.ofMethod? k n m
    work (MethodSketch.sketchLead m s level)
    let head ← work (MethodSketch.headText k n m s)
    if s.hasBody then
      work (SketchM.edit (Draft.writeLine level (head ++ " \x7b")))
      sketchBody k n m s.visible.length level
    else
      work (SketchM.edit (Draft.writeLine level (MethodSketch.bareLine m head)))
      return .written

/-- Goes back to a byte position and a line. -/
def rewind (size line : Nat) : Guarded σ Unit := change fun d => do
  let buffer ← d.buffer.truncate? size
  return { d with buffer, line }

def attempt (k : Kit σ) (v : Visit) (content : Bool) : Guarded σ Outcome := do
  work (SketchM.editWhen content Draft.endLine)
  sketchOne k v.node v.method v.level

/-- What follows a method. The text of one that is hidden is cut off, and the class of one that failed
is looked up by its number. -/
def settleNext (t : ClassTree) (n : ClassNode) (content : Bool) (before : Draft) :
    Outcome → Guarded σ Bool
  | .hidden => do
    rewind before.buffer.size before.line
    return content
  | .written => return true
  | .failed => do
    let (failing, _) ← t.family? n.id
    work (SketchM.edit fun d => { d with failed := failing.id :: d.failed })
    return true

def sketchNext (k : Kit σ) (t : ClassTree) (v : Visit) (content : Bool) : Guarded σ Bool := do
  let before := (← get).draft
  let outcome ← attempt k v content
  settleNext t v.node content before outcome

def sketchFrom (k : Kit σ) (t : ClassTree) (n : ClassNode) (level : Nat) (content : Bool) :
    List MethodDecl → Guarded σ Bool
  | [] => return content
  | m :: ms => do
    let content ← sketchNext k t ⟨level, n, m⟩ content
    sketchFrom k t n level content ms

end Guarded

/-- Wherever the body of a method starts, the renderer gives the same text for it, or none, and counts
as many lines. The offsets that it marks are on these lines. -/
structure Kit.Gives {σ : Type} (k : Kit σ) (v : Visit) (text : Option String) (count : Nat) : Prop where
  rendered : ∀ current line memory,
    let site : BodySite := ⟨v.node.decl, v.method, v.level + 1, k.options.layout, current⟩
    let r := MethodSketch.rendering line
      (k.renderer.body site ⟨line, [], v.method.lineTable⟩ memory).1
    r.text = text ∧ r.trace.line = line + count ∧ r.trace.offsets.UpTo (line + count)

/-- What a kit gives for the body of a method loses no more than so many lines. -/
def Kit.Spares {σ : Type} (k : Kit σ) (slack : Nat) (v : Visit) : Prop :=
  v.hasBody k = true → ∃ text count, k.Gives v text count ∧ MethodSketch.lost k v text count ≤ slack

namespace MethodSketch

variable {σ : Type} {k : Kit σ} {v : Visit} {text : Option String} {count : Nat}

theorem renderBody_of_gives (h : k.Gives v text count) (current : String) (b : Bench σ) :
    let site : BodySite := ⟨v.node.decl, v.method, v.level + 1, k.options.layout, current⟩
    let r := renderBody k site b
    (r.1.text = text ∧ r.1.trace.line = b.draft.line + count ∧
      r.1.trace.offsets.UpTo (b.draft.line + count)) ∧ r.2.draft = b.draft := by
  dsimp only
  rw [renderBody_apply]
  exact ⟨h.rendered current b.draft.line b.shop.memory, rfl⟩

theorem sketchBody_of_gives (h : k.Gives v text count) (b : Bench σ) :
    let out := sketchBody k v.node v.method (v.shape k).visible.length v.level b
    out.1 = fate k v text ∧ (b.draft.buffer.layout = k.options.layout →
      out.2.draft.line = b.draft.line + span k v text) := by
  obtain ⟨⟨htext, _⟩, hdraft⟩ :=
    renderBody_of_gives h (b.draft.scope.className.getD v.node.decl.name) b
  dsimp only at htext hdraft ⊢
  rw [sketchBody_apply]
  generalize (⟨v.node.decl, v.method, v.level + 1, k.options.layout,
    b.draft.scope.className.getD v.node.decl.name⟩ : BodySite) = site at htext hdraft ⊢
  have hspec := settleBody_spec k site v (renderBody k site b).1 (renderBody k site b).2
  rwa [htext, hdraft] at hspec

theorem since_leadAndHead (k : Kit σ) (v : Visit) (b : Bench σ) :
    b.Since (leadAndHead k v b).2 := by
  have hm : Wording.any.Holds v.method.texts := fun _ _ _ _ => trivial
  have hs : (v.shape k).Worded Wording.any := MethodShape.ofMethod_worded k v.node hm
  have hkeeps := ((steps_since b).sketchLead (Eq.refl v.level) hm hs).seq
    ((steps_since b).headText k.worded_any v.node hm hs)
  exact (hkeeps b b ⟨rfl, .refl b⟩).2.2

theorem sketchOne_of_gives (h : k.Gives v text count) (hbody : v.hasBody k = true) {b : Bench σ}
    (hl : b.draft.buffer.layout = k.options.layout) :
    let out := sketchOne k v.node v.method v.level b
    out.1 = fate k v text ∧ out.2.draft.line = b.draft.line + headCount k v + span k v text := by
  rw [sketchOne_apply]
  dsimp only
  rw [afterHead, if_pos hbody]
  generalize hb : Scoped.withScope b (b.draft.scope.enterMethod v.method.key) = b'
  have hline := line_leadAndHead k v b'
  have hlayout := (since_leadAndHead k v b').grows.layout_eq
  generalize leadAndHead k v b' = r at hline hlayout ⊢
  obtain ⟨head, c⟩ := r
  subst hb
  have hspec := sketchBody_of_gives h { c with draft := c.draft.writeLine v.level (head ++ " \x7b") }
  refine ⟨hspec.1, (hspec.2 (hlayout.trans hl)).trans ?_⟩
  exact congrArg (· + span k v text) hline

theorem attempt_of_gives (h : k.Gives v text count) (hbody : v.hasBody k = true) (content : Bool)
    {b : Bench σ} (hl : b.draft.buffer.layout = k.options.layout) :
    let out := attempt k v content b
    out.1 = fate k v text ∧
      out.2.draft.line ≤ b.draft.line + 1 + headCount k v + span k v text := by
  cases content with
  | false =>
    obtain ⟨hfate, hline⟩ := sketchOne_of_gives h hbody hl
    exact ⟨hfate, Nat.le_trans (Nat.le_of_eq hline) (by omega)⟩
  | true =>
    obtain ⟨hfate, hline⟩ := sketchOne_of_gives h hbody (b := { b with draft := b.draft.endLine }) hl
    exact ⟨hfate, Nat.le_of_eq hline⟩

theorem outcome_attempt_of_bodiless (hbody : ¬ v.hasBody k = true) (content : Bool) (b : Bench σ) :
    (attempt k v content b).1 = .written := by
  change (sketchOne k v.node v.method v.level (SketchM.editWhen content Draft.endLine b).2).1 = _
  rw [sketchOne_apply]
  dsimp only
  rw [afterHead, if_neg hbody]
  rfl

end MethodSketch

namespace Agrees

variable {σ : Type} {slack : Nat} {k : Kit σ} {b : Bench σ}

theorem edit {f : Draft → Draft} (hgrows : b.draft.Grows (f b.draft))
    (hmap : (f b.draft).lineMap = b.draft.lineMap) :
    Agrees slack (SketchM.edit f) (Guarded.work (SketchM.edit f)) b :=
  of_since ⟨hgrows, hmap⟩

theorem writeLine (level : Nat) (s : String) :
    Agrees slack (SketchM.edit (Draft.writeLine level s))
      (Guarded.work (SketchM.edit (Draft.writeLine level s))) b :=
  edit (b.draft.grows_writeLine level s) rfl

theorem blankLine (content : Bool) :
    Agrees slack (SketchM.editWhen content Draft.endLine)
      (Guarded.work (SketchM.editWhen content Draft.endLine)) b :=
  of_keeps (Steps.editWhen content _ _ fun _ _ hb =>
    (steps_since b).endLine (Eq.refl 0) hb)

theorem writeBody (text : String) :
    Agrees slack (SketchM.edit (MethodSketch.writeBody text))
      (Guarded.change (Guarded.writeBody? text)) b := by
  have happend := b.draft.grows_appendText text
  refine .change ?_ ?_ ?_
  · rw [Guarded.writeBody?, Draft.appendText?_eq]
    rfl
  · rw [MethodSketch.writeBody]
    split
    · exact happend
    · exact happend.trans (Draft.grows_endLine _)
  · rw [MethodSketch.writeBody]
    split <;> rfl

theorem close (site : BodySite) {trace : Trace} (level : Nat)
    (h : trace.offsets.UpTo (b.draft.line + 1 + slack)) :
    Agrees slack (MethodSketch.close k site trace level)
      (Guarded.work (MethodSketch.close k site trace level)) b := by
  refine .work ((b.draft.grows_writeLine level "\x7d").page rfl rfl) fun top htop hmap => ?_
  have hlast : b.draft.line + 1 + slack ≤ top := htop
  have htrace : trace.offsets.UpTo top := fun e he => Nat.le_trans (h e he) hlast
  refine hmap.add _ _ ?_
  cases k.renderer.exitOffset site with
  | none => exact htrace
  | some offset =>
    have hline : b.draft.line ≤ top := by omega
    exact htrace.insertNew offset hline

/-- The offsets of a body are at most `slack` below the line on which the method ends. -/
theorem settleBody (site : BodySite) (n : ClassNode) (m : MethodDecl) (visible level : Nat)
    {r : MethodSketch.Rendered}
    (h : r.trace.offsets.UpTo
      ((MethodSketch.settleBody k site n m visible level r b).2.draft.line + slack)) :
    Agrees slack (MethodSketch.settleBody k site n m visible level r)
      (Guarded.settleBody k site n m visible level r) b := by
  obtain ⟨text, trace⟩ := r
  rw [MethodSketch.settleBody] at h ⊢
  rw [Guarded.settleBody]
  cases text with
  | none =>
    dsimp only at h ⊢
    refine Agrees.bind (writeLine (level + 1) placeholder) ?_
    exact Agrees.bind (close site level h) (.pure _)
  | some text =>
    dsimp only at h ⊢
    split
    · exact .pure _
    · next hempty =>
      rw [if_neg hempty] at h
      have hfill : Agrees slack
          (SketchM.editWhen (!Text.isBlankText text) (MethodSketch.writeBody text))
          (Guarded.changeWhen (!Text.isBlankText text) (Guarded.writeBody? text)) b := by
        cases Text.isBlankText text with
        | true => exact .pure _
        | false => exact writeBody text
      refine Agrees.bind hfill ?_
      split
      · exact .pure _
      · next hgenerated =>
        rw [if_neg hgenerated] at h
        exact Agrees.bind (close site level h) (.pure _)

theorem sketchBody {v : Visit} {text : Option String} {count : Nat} (hv : k.Gives v text count)
    (hl : b.draft.buffer.layout = k.options.layout)
    (hslack : count ≤ MethodSketch.span k v text + slack) :
    Agrees slack (MethodSketch.sketchBody k v.node v.method (v.shape k).visible.length v.level)
      (Guarded.sketchBody k v.node v.method (v.shape k).visible.length v.level) b := by
  have hend := (MethodSketch.sketchBody_of_gives hv b).2 hl
  obtain ⟨⟨_, hline, hoffsets⟩, hdraft⟩ :=
    MethodSketch.renderBody_of_gives hv (b.draft.scope.className.getD v.node.decl.name) b
  rw [MethodSketch.sketchBody_apply] at hend
  rw [MethodSketch.sketchBody_eq, Guarded.sketchBody]
  refine Agrees.get ?_
  dsimp only at hend hline hoffsets hdraft ⊢
  generalize (⟨v.node.decl, v.method, v.level + 1, k.options.layout,
    b.draft.scope.className.getD v.node.decl.name⟩ : BodySite) = site at hend hline hoffsets hdraft ⊢
  have hquiet : b.Since (MethodSketch.renderBody k site b).2 :=
    ⟨hdraft ▸ .refl _, congrArg _ hdraft⟩
  -- The counter of the renderer is at most as far below the end of the method as the slack.
  have hcount : b.draft.line + count ≤ b.draft.line + MethodSketch.span k v text + slack := by omega
  rw [← hend] at hcount
  refine Agrees.bind (of_since hquiet) (Agrees.reach (hline ▸ hcount) ?_)
  exact settleBody site _ _ _ _ fun e he => Nat.le_trans (hoffsets e he) hcount

theorem sketchOne {v : Visit} (hl : b.draft.buffer.layout = k.options.layout)
    (hv : v.hasBody k = true → ∃ text count, k.Gives v text count ∧
      count ≤ MethodSketch.span k v text + slack) :
    Agrees slack (MethodSketch.sketchOne k v.node v.method v.level)
      (Guarded.sketchOne k v.node v.method v.level) b := by
  refine Agrees.inScope (Agrees.lookup (MethodShape.ofMethod?_eq k v.node v.method) ?_)
  have hm : Wording.any.Holds v.method.texts := fun _ _ _ _ => trivial
  have hs : (MethodShape.ofMethod k v.node v.method).Worded Wording.any :=
    MethodShape.ofMethod_worded k v.node hm
  have hlead : Agrees slack _ _ (Scoped.withScope b (b.draft.scope.enter (.ofMethod v.method.key)).1) :=
    of_keeps ((steps_since _).sketchLead (Eq.refl v.level) hm hs)
  replace hl := hlead.layout_eq hl
  refine Agrees.bind hlead ?_
  generalize (MethodSketch.sketchLead v.method _ v.level _).2 = c at hl ⊢
  have hhead : Agrees slack _ _ c := of_keeps ((steps_since c).headText k.worded_any v.node hm hs)
  replace hl := hhead.layout_eq hl
  refine Agrees.bind hhead ?_
  generalize MethodSketch.headText k v.node v.method _ c = r at hl ⊢
  split
  · next hbody =>
    obtain ⟨text, count, hgives, hcount⟩ := hv hbody
    exact Agrees.bind (writeLine _ _) (sketchBody hgives hl hcount)
  · exact Agrees.bind (writeLine _ _) (.pure _)

theorem attempt {v : Visit} (content : Bool) (hl : b.draft.buffer.layout = k.options.layout)
    (hv : v.hasBody k = true → ∃ text count, k.Gives v text count ∧
      count ≤ MethodSketch.span k v text + slack) :
    Agrees slack (MethodSketch.attempt k v content) (Guarded.attempt k v content) b := by
  have hblank : Agrees slack _ _ b := blankLine content
  exact hblank.bind (sketchOne (hblank.layout_eq hl) hv)

/-- Text that was added since is cut off where it starts, which is between two characters. -/
theorem rewind_apply {before : Draft} {b : Bench σ} {limit : Nat} (h : before.Grows b.draft)
    (hlimit : before.line < limit) :
    Guarded.rewind before.buffer.size before.line limit b =
      some ((), { b with draft := Draft.rewind before b.draft }) := by
  obtain ⟨s, hs, _⟩ := h.added
  refine Guarded.change_apply ?_ hlimit
  rw [hs, Text.Buffer.truncate?_append]
  rfl

/-- Going back loses lines, so the slack has to make up for them. -/
theorem takeBack {α β : Type} {slack' : Nat} {act : SketchM σ α} {run : Guarded σ α}
    (h : Agrees slack' act run b) (hslack : (act b).2.draft.line + slack' ≤ b.draft.line + slack)
    {f : α → SketchM σ β} {g : α → Guarded σ β} {x : β}
    (hf : ∀ c, f (act b).1 c = (x, c.rewindTo b))
    (hg : g (act b).1 = do
      Guarded.rewind b.draft.buffer.size b.draft.line
      return x) :
    Agrees slack (act >>= f) (run >>= g) b := by
  have hact : (act >>= f) b = (x, (act b).2.rewindTo b) := hf (act b).2
  have hback : ((act >>= f) b).2.draft.line = b.draft.line := congrArg (·.2.draft.line) hact
  have hmap : ((act >>= f) b).2.draft.lineMap = (act b).2.draft.lineMap :=
    congrArg (·.2.draft.lineMap) hact
  refine ⟨(Draft.Grows.refl _).page (congrArg (·.2.draft.buffer) hact) hback, fun top htop hb => ?_,
    fun limit hlimit => ?_⟩
  · rw [hback] at htop
    rw [hmap]
    exact h.lineMap top (by omega) hb
  · rw [hback] at hlimit
    have hline : b.draft.line < limit := by omega
    have hcut := rewind_apply h.grows hline
    rw [Guarded.bind_apply, h.run_eq limit (by omega), Option.bind_some, hg, Guarded.bind_apply, hcut,
      hact]
    rfl

theorem settleNext {n : ClassNode} (content : Bool) (before : Draft) {o : MethodSketch.Outcome}
    (ho : o ≠ .hidden) {t : ClassTree} {cs : List ClassNode} (hn : t.family? n.id = some (n, cs)) :
    Agrees slack (MethodSketch.settleNext n content before o)
      (Guarded.settleNext t n content before o) b := by
  cases o with
  | hidden => exact absurd rfl ho
  | written => exact .pure true
  | failed =>
    refine Agrees.lookup hn ?_
    exact Agrees.bind (edit ((Draft.Grows.refl _).page rfl rfl) rfl) (.pure true)

theorem sketchNext {v : Visit} (content : Bool) (hl : b.draft.buffer.layout = k.options.layout)
    (hv : k.Spares slack v) {t : ClassTree} {cs : List ClassNode}
    (hn : t.family? v.node.id = some (v.node, cs)) :
    Agrees slack (MethodSketch.sketchNext k v content) (Guarded.sketchNext k t v content) b := by
  rw [MethodSketch.sketchNext_eq, Guarded.sketchNext]
  refine Agrees.get ?_
  dsimp only
  by_cases hbody : v.hasBody k = true
  · obtain ⟨text, count, hgives, hlost⟩ := hv hbody
    obtain ⟨hfate, hend⟩ := MethodSketch.attempt_of_gives hgives hbody content hl
    have hattempt : ∀ slack', count ≤ MethodSketch.span k v text + slack' →
        Agrees slack' (MethodSketch.attempt k v content) (Guarded.attempt k v content) b :=
      fun _ hcount => attempt content hl fun _ => ⟨text, count, hgives, hcount⟩
    rw [MethodSketch.lost] at hlost
    split at hlost
    · next hhidden =>
      rw [hhidden] at hfate
      refine takeBack (x := content) (hattempt (count - MethodSketch.span k v text) (by omega))
        (by omega) ?_ ?_
      · rw [hfate]
        exact fun _ => rfl
      · rw [hfate]
        rfl
    · next hkept => exact (hattempt slack (by omega)).bind (settleNext content _ (hfate ▸ hkept) hn)
  · have hwritten := MethodSketch.outcome_attempt_of_bodiless hbody content b
    refine Agrees.bind (attempt content hl fun h => absurd h hbody) (settleNext content _ ?_ hn)
    rw [hwritten]
    decide

theorem sketchFrom (level : Nat) (content : Bool) (hl : b.draft.buffer.layout = k.options.layout)
    {t : ClassTree} {n : ClassNode} {cs : List ClassNode} (hn : t.family? n.id = some (n, cs))
    {ms : List MethodDecl} (hms : ∀ m ∈ ms, k.Spares slack ⟨level, n, m⟩) :
    Agrees slack (MethodSketch.sketchFrom k n level content ms)
      (Guarded.sketchFrom k t n level content ms) b := by
  induction ms generalizing content b with
  | nil => exact .pure content
  | cons m ms ih =>
    rw [List.forall_mem_cons] at hms
    rw [MethodSketch.sketchFrom_cons, Guarded.sketchFrom]
    have hnext : Agrees slack _ _ b := sketchNext content hl hms.1 hn
    exact hnext.bind (ih _ (hnext.layout_eq hl) hms.2)

end Agrees

end ClassSketch
