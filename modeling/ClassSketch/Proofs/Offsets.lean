import ClassSketch.Proofs.LinePositions
import ClassSketch.Proofs.Provenance

/-! Offsets of prepared bodies against the lines of the file. While a file is drafted, the table of
each method that was written holds the lines on which its body stands in the text so far. Text
that is added later goes below, and the head of the file shifts all of them alike. -/

namespace ClassSketch

open Text (LineAt Closed newlines)

namespace LineMap

/-- The lines of a method, as they were counted. -/
def counted? (m : LineMap) (key : String × String) : Option OffsetTable :=
  (m.classes.find? key.1).bind (·.find? key.2)

structure Ordered (m : LineMap) : Prop where
  classes : m.classes.Ascending
  methods : ∀ name methods, m.classes.find? name = some methods → methods.Ascending

variable {m : LineMap}

theorem Ordered.getD (h : m.Ordered) (name : String) :
    Table.Ascending ((m.classes.find? name).getD []) := by
  cases hm : m.classes.find? name with
  | none => exact List.Pairwise.nil
  | some methods => exact h.methods name methods hm

theorem Ordered.add (h : m.Ordered) (name key : String) (t : Trace) : (m.add name key t).Ordered := by
  refine ⟨h.classes.alter _ _, fun other methods hm => ?_⟩
  rw [LineMap.add, h.classes.find?_alter] at hm
  split at hm
  · obtain rfl := Option.some.inj hm
    exact (h.getD name).alter _ _
  · exact h.methods other methods hm

theorem Ordered.counted?_add (h : m.Ordered) (name key : String) (t : Trace)
    (k : String × String) :
    (m.add name key t).counted? k =
      if k = (name, key) then some (((m.counted? k).getD []).absorb t.offsets)
      else m.counted? k := by
  obtain ⟨other, k⟩ := k
  have hclass := h.classes.find?_alter name
    (fun methods => (methods.getD []).alter key fun table => (table.getD []).absorb t.offsets) other
  rw [counted?, LineMap.add]
  dsimp only
  rw [hclass]
  by_cases hname : other = name
  · subst hname
    have hmethod := (h.getD other).find?_alter key
      (fun table => (table.getD []).absorb t.offsets) k
    have hbind : ((m.classes.find? other).getD []).find? k = m.counted? (other, k) := by
      rw [counted?]
      cases m.classes.find? other <;> rfl
    rw [if_pos rfl, Option.bind_some, hmethod]
    by_cases hkey : k = key
    · subst hkey
      rw [if_pos rfl, if_pos rfl, hbind]
    · rw [if_neg hkey, if_neg fun he => hkey (Prod.mk.inj he).2, hbind]
  · rw [if_neg hname, if_neg fun he => hname (Prod.mk.inj he).1]
    rfl

/-- What is read of a method is what was counted, shifted. -/
theorem find?_tables (m : LineMap) {key : String × String} {table : OffsetTable}
    (h : m.counted? key = some table) :
    ∃ methods, m.tables.find? key.1 = some methods ∧
      methods.find? key.2 = some (m.shifted table) := by
  obtain ⟨methods, hclass, hmethod⟩ := Option.bind_eq_some_iff.mp h
  refine ⟨methods.mapValues m.shifted, ?_, ?_⟩
  · rw [tables, Table.find?_mapValues, hclass]
    rfl
  · rw [Table.find?_mapValues, hmethod]
    rfl

end LineMap

namespace PreparedBodies

variable {σ : Type} (p : PreparedBodies) (o : Options)

def kit (σ : Type) : Kit σ := ⟨o, p.renderer σ⟩

/-- The body of the method is not blank and becomes part of the file. -/
structure Writes (v : Visit) (source : String) : Prop where
  hasBody : v.hasBody (p.kit o σ) = true
  source_eq : p.bodies.lookup (v.method.fullKey v.node.decl) = some source
  isBlank_eq : Text.isBlankText source = false
  written : MethodSketch.fate (p.kit o σ) v (some (p.render (v.site o) {}).1.text) = .written

/-- The first offsets of the lines of a body stand on these lines in a text. -/
def Placed (v : Visit) (source text : String) (table : OffsetTable) : Prop :=
  ∀ i e line, v.method.lineTable[i]? = some e →
    (∀ d ∈ v.method.lineTable.take i, d.startPc ≠ e.startPc) →
    (Text.lines source)[i]? = some line →
    ∃ n, table.find? e.startPc.toNat = some n ∧
      LineAt text n (o.layout.indentText (v.level + 1) ++ line)

variable {p o}

theorem Placed.append {v : Visit} {source text : String} {table : OffsetTable}
    (h : Placed o v source text table) (s : String) : Placed o v source (text ++ s) table := by
  intro i e line he hfirst hline
  obtain ⟨n, hn, hat⟩ := h i e line he hfirst hline
  exact ⟨n, hn, hat.append s⟩

theorem Placed.prepend {v : Visit} {source text : String} {table : OffsetTable}
    (h : Placed o v source text table) {s : String} (hs : Closed s) :
    Placed o v source (s ++ text) (table.mapValues (· + newlines s)) := by
  intro i e line he hfirst hline
  obtain ⟨n, hn, hat⟩ := h i e line he hfirst hline
  refine ⟨n + newlines s, ?_, ?_⟩
  · rw [Table.find?_mapValues, hn]
    rfl
  · rw [Nat.add_comm]
    exact hat.prepend hs

/-- What the kit makes of a body that starts on some line. -/
theorem rendered_kit (v : Visit) (line : Nat) (memory : σ) :
    MethodSketch.rendered (p.kit o σ) v line memory =
      ⟨some (p.render (v.site o) {}).1.text,
        (p.render (v.site o) ⟨line, [], v.method.lineTable⟩).2⟩ := by
  have htext : (p.render (v.site o) ⟨line, [], v.method.lineTable⟩).1 = (p.render (v.site o) {}).1 := by
    rw [render, render]
    cases p.bodies.lookup ((v.site o).method.fullKey (v.site o).decl) with
    | none => rfl
    | some source => exact congrArg (fun text => ({ text } : Body)) (text_layOut _ _ _ _ _ _)
  have hplain : (p.render (v.site o) {}).1.flagged = false := by
    rw [render]
    cases p.bodies.lookup ((v.site o).method.fullKey (v.site o).decl) <;> rfl
  have hanswer : MethodSketch.rendered (p.kit o σ) v line memory = MethodSketch.rendering line
      (.ok (p.render (v.site o) ⟨line, [], v.method.lineTable⟩).1,
        (p.render (v.site o) ⟨line, [], v.method.lineTable⟩).2) := rfl
  rw [hanswer, MethodSketch.rendering]
  dsimp only
  rw [htext, hplain]
  rfl

/-- What holds of a draft after some visits: the counter is in step, nothing is filed but under their
keys, and if these are distinct the offsets of each body that was written are placed. -/
structure Charted (p : PreparedBodies) (o : Options) (σ : Type) (done : List Visit) (d : Draft) :
    Prop where
  counted : d.Counted o.layout True
  unshifted : d.lineMap.shift = 0
  ordered : d.lineMap.Ordered
  filed : ∀ key, d.lineMap.counted? key ≠ none → key ∈ done.map Visit.key
  placed : (done.map Visit.key).Nodup → ∀ v ∈ done, ∀ source, p.Writes (σ := σ) o v source →
    ∃ table, d.lineMap.counted? v.key = some table ∧ Placed o v source d.buffer.text table

namespace Charted

variable {done : List Visit} {d d' : Draft} {v : Visit}

theorem extend (h : Charted p o σ done d) (hd : d'.Counted o.layout True)
    (hmap : d'.lineMap = d.lineMap) {s : String} (htext : d'.buffer.text = d.buffer.text ++ s) :
    Charted p o σ done d' := by
  refine ⟨hd, hmap ▸ h.unshifted, hmap ▸ h.ordered, hmap ▸ h.filed, fun hnd v hv source hw => ?_⟩
  obtain ⟨table, ht, hplaced⟩ := h.placed hnd v hv source hw
  rw [hmap, htext]
  exact ⟨table, ht, hplaced.append s⟩

/-- A visit whose body is not written leaves the draft as it was. -/
theorem skip (h : Charted p o σ done d) (hv : ∀ source, ¬ p.Writes (σ := σ) o v source) :
    Charted p o σ (done ++ [v]) d := by
  refine ⟨h.counted, h.unshifted, h.ordered, fun key hkey => ?_, fun hnd u hu source hw => ?_⟩
  · rw [List.map_append]
    exact List.mem_append_left _ (h.filed key hkey)
  · rw [List.map_append] at hnd
    rcases List.mem_append.mp hu with hu | hu
    · exact h.placed (List.nodup_append.mp hnd).1 u hu source hw
    · obtain rfl := List.mem_singleton.mp hu
      exact absurd hw (hv source)

/-- The lines of a body that is appended to a draft. -/
theorem placed_render (hl : o.layout.LineFed) (hd : d.Counted o.layout True)
    (hclosed : Closed d.buffer.text) {source : String} (hw : p.Writes (σ := σ) o v source) :
    Placed o v source (d.buffer.text ++ (p.render (v.site o) {}).1.text)
      (Table.absorb [] (p.render (v.site o) ⟨d.line, [], v.method.lineTable⟩).2.offsets) := by
  have hsource : p.bodies.lookup ((v.site o).method.fullKey (v.site o).decl) = some source :=
    hw.source_eq
  have hsite : (v.site o).layout.LineFed := hl
  intro i e line he hfirst hline
  obtain ⟨hi, _⟩ := List.getElem?_eq_some_iff.mp hline
  have hoffset := (offsets_layOut (v.site o) (Text.lines source) v.method.lineTable
    (t := ⟨d.line, [], v.method.lineTable⟩) List.Pairwise.nil).2 i e hi he hfirst rfl
  have hempty : Table.Ascending ([] : OffsetTable) := List.Pairwise.nil
  have hat := lineAt_layOut hsite (fun _ h => Text.oneLine_of_mem_lines h)
    (v.site o).method.lineTable {} hline
  refine ⟨d.line + i, ?_, ?_⟩
  · rw [hempty.find?_absorb, render, hsource]
    exact hoffset
  · rw [hd.eq trivial, render, hsource]
    exact hat.prepend hclosed

theorem closed_writeLine (hl : o.layout.LineFed) (hd : d.buffer.layout = o.layout) (level : Nat)
    (s : String) : Closed (d.writeLine level s).buffer.text := by
  refine .inr ⟨d.buffer.text ++ o.layout.indentText level ++ s, ?_⟩
  simp only [Draft.writeLine, Text.Buffer.appendLine, Text.Buffer.endLine, Text.Buffer.appendIndent,
    Text.Buffer.append, hd, hl.separator]

theorem text_filled (text : String) (d : Draft) :
    ∃ s, (MethodSketch.filled text d).buffer.text = d.buffer.text ++ s ∧
      (Text.isBlankText text = false → ∃ rest, s = text ++ rest) := by
  rw [MethodSketch.filled]
  split
  · next hblank =>
    refine ⟨"", (String.append_empty).symm, fun h => ?_⟩
    rw [h] at hblank
    cases hblank
  · rw [MethodSketch.writeBody]
    split
    · exact ⟨text, rfl, fun _ => ⟨"", (String.append_empty).symm⟩⟩
    · exact ⟨text ++ d.buffer.layout.separator, String.append_assoc,
        fun _ => ⟨d.buffer.layout.separator, rfl⟩⟩

/-- A body that is not hidden files its offsets, below the text that was there. -/
theorem settle_kit (v : Visit) (r : MethodSketch.Rendered) {text : String} (hr : r.text = some text)
    (hne : MethodSketch.fate (p.kit o σ) v (some text) ≠ .hidden) (d : Draft) :
    (∃ s, (MethodSketch.settle (p.kit o σ) v r d).buffer.text = d.buffer.text ++ s ∧
        (Text.isBlankText text = false → ∃ rest, s = text ++ rest)) ∧
      ∃ t, t.offsets = r.trace.offsets ∧ (MethodSketch.settle (p.kit o σ) v r d).lineMap =
        d.lineMap.add v.node.decl.name v.method.key t := by
  have hsettle : MethodSketch.settle (p.kit o σ) v r d = MethodSketch.closed (p.kit o σ) (v.site o)
      r.trace v.level (MethodSketch.filled text d) := by
    rw [MethodSketch.settle, hr]
    exact if_neg hne
  obtain ⟨s, hs, hbody⟩ := text_filled text d
  have hmap := MethodSketch.lineMap_filled text d
  rw [hsettle]
  generalize MethodSketch.filled text d = f at hs hmap
  refine ⟨⟨s ++ (f.buffer.layout.indentText v.level ++ ("\x7d" ++ f.buffer.layout.separator)),
    ?_, fun hblank => ?_⟩, r.trace.moveTo f.line, rfl, ?_⟩
  · have hclosed : (MethodSketch.closed (p.kit o σ) (v.site o) r.trace v.level f).buffer.text =
        f.buffer.text ++ f.buffer.layout.indentText v.level ++ "\x7d" ++
          f.buffer.layout.separator := rfl
    rw [hclosed, hs]
    simp only [String.append_assoc]
  · obtain ⟨rest, rfl⟩ := hbody hblank
    exact ⟨_, String.append_assoc⟩
  · rw [← hmap]
    rfl

theorem shown (hl : o.layout.LineFed) {head : String} (hhead : OneLine head) (memory : σ)
    (h : Charted p o σ done d)
    (hne : MethodSketch.fate (p.kit o σ) v (some (p.render (v.site o) {}).1.text) ≠ .hidden) :
    Charted p o σ (done ++ [v])
      (MethodSketch.settle (p.kit o σ) v (MethodSketch.rendered (p.kit o σ) v
        (d.writeLine v.level (head ++ " \x7b")).line memory)
        (d.writeLine v.level (head ++ " \x7b"))) := by
  have hopened : Charted p o σ done (d.writeLine v.level (head ++ " \x7b")) := by
    refine h.extend (h.counted.writeOpening hl _ fun _ => hhead) rfl
      (s := d.buffer.layout.indentText v.level ++ (head ++ " \x7b" ++ d.buffer.layout.separator)) ?_
    simp only [Draft.writeLine, Text.Buffer.appendLine, Text.Buffer.endLine,
      Text.Buffer.appendIndent, Text.Buffer.append, String.append_assoc]
  have hclosed := closed_writeLine hl h.counted.layout v.level (head ++ " \x7b")
  generalize d.writeLine v.level (head ++ " \x7b") = d at hopened hclosed ⊢
  rw [rendered_kit]
  obtain ⟨⟨s, htext, hbody⟩, t, ht, hmap⟩ := settle_kit (p := p) (o := o) (σ := σ) v
    ⟨some (p.render (v.site o) {}).1.text, (p.render (v.site o) ⟨d.line, [], v.method.lineTable⟩).2⟩
    rfl hne d
  have hcounted := hopened.counted.settle hl (p.kit o σ) v
    ⟨some (p.render (v.site o) {}).1.text, (p.render (v.site o) ⟨d.line, [], v.method.lineTable⟩).2⟩
  generalize MethodSketch.settle (p.kit o σ) v _ d = d' at htext hmap hcounted ⊢
  have hfind := hopened.ordered.counted?_add v.node.decl.name v.method.key t
  rw [← hmap] at hfind
  refine ⟨hcounted, ?_, hmap ▸ hopened.ordered.add _ _ _, fun key hkey => ?_,
    fun hnd u hu source hw => ?_⟩
  · rw [hmap]
    exact hopened.unshifted
  · rw [List.map_append, List.mem_append]
    rw [hfind] at hkey
    split at hkey
    · next heq => exact .inr (List.mem_singleton.mpr heq)
    · exact .inl (hopened.filed key hkey)
  · rw [List.map_append] at hnd
    obtain ⟨hdone, _, hdisjoint⟩ := List.nodup_append.mp hnd
    -- The key of the visit is new, so its table is the one of this body alone.
    have hfresh : ∀ key ∈ done.map Visit.key, key ≠ v.key :=
      fun key hkey => hdisjoint key hkey v.key (List.mem_singleton.mpr rfl)
    rcases List.mem_append.mp hu with hu | hu
    · obtain ⟨table, htable, hplaced⟩ := hopened.placed hdone u hu source hw
      refine ⟨table, ?_, htext ▸ hplaced.append s⟩
      rw [hfind]
      exact (if_neg (hfresh u.key (List.mem_map_of_mem hu))).trans htable
    · obtain rfl := List.mem_singleton.mp hu
      have hnone : d.lineMap.counted? u.key = none := by
        by_contra hsome
        exact hfresh u.key (hopened.filed u.key hsome) rfl
      have hplaced := placed_render hl hopened.counted hclosed hw
      have hnonblank : Text.isBlankText (p.render (u.site o) {}).1.text = false := by
        have hsource : p.bodies.lookup ((u.site o).method.fullKey (u.site o).decl) = some source :=
          hw.source_eq
        rw [render, hsource]
        exact isBlankText_layOut hw.isBlank_eq _ _
      obtain ⟨rest, rfl⟩ := hbody hnonblank
      refine ⟨_, (hfind u.key).trans (if_pos rfl), ?_⟩
      rw [hnone, htext, ht, ← String.append_assoc]
      exact hplaced.append rest

theorem carries (hl : o.layout.LineFed) :
    Carries .oneLine (p.kit o σ) (fun _ => True) (Charted p o σ) where
  page h hb hline hmap :=
    h.extend (h.counted.page hb hline) hmap (s := "") (by rw [hb, String.append_empty])
  draw _ hs h := h.extend (h.counted.draw hl _ fun _ => hs) rfl rfl
  bodiless _ hbody h := h.skip fun source hw => by
    have htrue := hw.hasBody
    rw [hbody] at htrue
    cases htrue
  hidden _ _ he h := h.skip fun source hw => by
    rw [rendered_kit] at he
    have hwritten := hw.written
    rw [he] at hwritten
    cases hwritten
  shown memory _ _ hhead h hne := by
    rw [rendered_kit] at hne
    exact h.shown hl hhead.within memory hne

end Charted

end PreparedBodies

section Heads

variable {l : Text.Layout}

theorem Text.Buffer.closed_endLine (hl : l.LineFed) {b : Text.Buffer} (hb : b.layout = l) :
    Closed b.endLine.text :=
  .inr ⟨b.text, by rw [endLine, append, hb, hl.separator]⟩

theorem Draft.layout_fileHead (d : Draft) (c : ClassDecl) :
    (d.fileHead c).layout = d.buffer.layout := by
  have himports : ∀ (i : Imports) (b : Text.Buffer), (i.write b).layout = b.layout := by
    intro i b
    rw [Imports.write]
    split
    · rfl
    · exact List.foldlRecOn (motive := fun b' : Text.Buffer => b'.layout = b.layout) _ _ rfl
        fun _ h _ _ => h
  rw [fileHead, himports]
  split <;> rfl

/-- The lines before the class are whole lines. -/
theorem Draft.closed_fileHead (hl : l.LineFed) {d : Draft} (hd : d.buffer.layout = l)
    (c : ClassDecl) : Closed (d.fileHead c).text := by
  have himports : ∀ (i : Imports) (b : Text.Buffer), b.layout = l → Closed b.text →
      Closed (i.write b).text := by
    intro i b hb hclosed
    have hlines : (i.imported.foldl (fun b name => b.appendLine 0 ("import " ++ name)) b).layout =
        l := List.foldlRecOn (motive := fun b : Text.Buffer => b.layout = l) _ _ hb
      fun _ h _ _ => h
    rw [Imports.write]
    split
    · exact hclosed
    · exact Text.Buffer.closed_endLine hl hlines
  rw [fileHead]
  refine himports d.imports _ ?_ ?_
  · split <;> exact hd
  · split
    · exact .inl rfl
    · exact Text.Buffer.closed_endLine hl hd

theorem Draft.lineMap_finish (o : Options) (c : ClassDecl) (d : Draft) :
    (d.finish o c).2 = d.lineMap.shiftBy (d.fileHead c).lineCount := by
  rw [finish]
  split <;> rfl

theorem Draft.text_finish (o : Options) (c : ClassDecl) (d : Draft) :
    ∃ below, (d.finish o c).1 = (d.fileHead c).text ++ d.buffer.text ++ below := by
  rw [Draft.finish]
  split
  · exact ⟨_, String.append_assoc⟩
  · exact ⟨"", (String.append_empty).symm⟩

/-- A file is its draft between whole lines above, by which all counts are shifted, and the rest. -/
theorem Draft.finish_parts {o : Options} (hl : o.layout.LineFed) {d : Draft}
    (hd : d.buffer.layout = o.layout) (c : ClassDecl) :
    ∃ above below, Closed above ∧ (d.finish o c).1 = above ++ d.buffer.text ++ below ∧
      (d.finish o c).2 = d.lineMap.shiftBy (newlines above) := by
  have hshift : (d.fileHead c).lineCount = newlines (d.fileHead c).text := by
    rw [Text.Buffer.lineCount, d.layout_fileHead, hd, hl.separator, Text.countLines_lineFeed]
  obtain ⟨below, htext⟩ := d.text_finish o c
  exact ⟨_, below, Draft.closed_fileHead hl hd c, htext, hshift ▸ d.lineMap_finish o c⟩

end Heads

namespace PreparedBodies

variable {σ : Type} {p : PreparedBodies} {o : Options}

/-- The offsets of a body in the finished file. -/
theorem Charted.finish (hl : o.layout.LineFed) {done : List Visit} {d : Draft}
    (h : Charted p o σ done d) (hnd : (done.map Visit.key).Nodup) {v : Visit} (hv : v ∈ done)
    {source : String} (hw : p.Writes (σ := σ) o v source) (c : ClassDecl) :
    ∃ methods table, (d.finish o c).2.tables.find? v.node.decl.name = some methods ∧
      methods.find? v.method.key = some table ∧ Placed o v source (d.finish o c).1 table := by
  obtain ⟨table, htable, hplaced⟩ := h.placed hnd v hv source hw
  obtain ⟨above, below, hclosed, htext, hmap⟩ := Draft.finish_parts hl h.counted.layout c
  obtain ⟨methods, hclass, hmethod⟩ := (d.lineMap.shiftBy (newlines above)).find?_tables htable
  refine ⟨methods, _, hmap ▸ hclass, hmethod, ?_⟩
  rw [htext, LineMap.shifted, LineMap.shiftBy, h.unshifted, Nat.zero_add]
  exact (hplaced.prepend hclosed).append below

theorem worded_kit (hp : ∀ e ∈ p.initializers, OneLine e.2) (o : Options) :
    (p.kit o σ).Worded .oneLine := by
  refine ⟨fun c f s hs => ?_, fun _ _ _ _ h => by cases h⟩
  obtain ⟨before, after, hsplit, _⟩ := List.lookup_eq_some_iff.mp hs
  exact hp (f.fullKey c, s) (by simp [hsplit])

/-- Whatever was written before, the file of a tree maps the offsets of each body that is written to
the lines on which the body stands. -/
theorem offsets_map_to_lines (o : Options) (hl : o.layout.LineFed) (p : PreparedBodies)
    (hp : ∀ e ∈ p.initializers, OneLine e.2) {l : Library} (hlib : l.Worded .oneLine)
    (hkeys : ∀ c ∈ l.classes, (c.methods.map (·.key)).Nodup) {policy : Renaming}
    (hpolicy : policy.Worded .oneLine) (memory : σ) (written : List String) :
    ∀ t ∈ ((Session.start (p.kit o σ) l memory policy).afterWrites written).forest.trees,
      ∀ n ∈ t.names, ∃ file s',
        ((Session.start (p.kit o σ) l memory policy).afterWrites written).write n =
          .ok (file, s') ∧
        ∀ v ∈ (p.kit o σ).fileVisits t, ∀ source, p.Writes (σ := σ) o v source →
          ∃ methods table, file.tables.find? v.node.decl.name = some methods ∧
            methods.find? v.method.key = some table ∧
            ∀ i e line, v.method.lineTable[i]? = some e →
              (∀ d ∈ v.method.lineTable.take i, d.startPc ≠ e.startPc) →
              (Text.lines source)[i]? = some line →
              ∃ n, table.find? e.startPc.toNat = some n ∧
                (file.text.toList.splitOn '\n')[n]? =
                  some (o.layout.indentText (v.level + 1) ++ line).toList := by
  intro t ht n hn
  have hk := worded_kit (σ := σ) hp o
  obtain ⟨hsourced, hkit⟩ :=
    (Session.sourced_start (k := p.kit o σ) hlib memory hpolicy).afterWrites written hk
  generalize (Session.start (p.kit o σ) l memory policy).afterWrites written = s
    at ht hsourced hkit ⊢
  have hkit : s.kit = p.kit o σ := hkit
  refine ⟨_, _, Session.write_of_mem_names hsourced.distinct ht hn, fun v hv source hw => ?_⟩
  have hnd := Kit.nodup_fileVisits (hsourced.distinct.nodup_tree ht) (hsourced.stands t ht) hkeys
    (p.kit o σ)
  have hclass : t.root.decl.isPackageInfo = false := by
    rw [← Bool.not_eq_true]
    intro hinfo
    rw [Kit.fileVisits, if_pos hinfo] at hv
    cases hv
  have hcharted : Charted p o σ ((p.kit o σ).fileVisits t) (s.shop.fileDraft (p.kit o σ) t).1 := by
    have hstart : Charted p o σ [] (.ofRoot t.root.name o.layout) :=
      ⟨⟨rfl, Nat.le_refl 0, fun _ => rfl⟩, rfl, ⟨List.Pairwise.nil, fun _ _ h => by cases h⟩,
        fun _ h => absurd rfl h, fun _ _ h => by cases h⟩
    have hany : ∀ v ∈ TypeSketch.visits (p.kit o σ) 0 (t.sprouted (p.kit o σ).renderer).tree,
        True := fun _ _ => trivial
    have hrun := (Charted.carries hl).sketch hk
      (ClassTree.texts_sprouted (hsourced.stands t ht) (p.kit o σ).renderer) hany
      (b := ⟨s.shop.prepare (t.sprouted (p.kit o σ).renderer).preparedClasses,
        .ofRoot t.root.name o.layout⟩) hstart hsourced.genealogy
    rw [Kit.fileVisits, Workshop.fileDraft, hclass]
    exact hrun.1
  rw [hkit, Workshop.text_writeFile, Workshop.tables_writeFile]
  generalize s.shop.fileDraft (p.kit o σ) t = out at hcharted ⊢
  obtain ⟨methods, table, hmethods, htable, hplaced⟩ :=
    hcharted.finish hl hnd hv hw t.root.decl
  refine ⟨methods, table, hmethods, htable, fun i e line he hfirst hline => ?_⟩
  obtain ⟨n, hn, hat⟩ := hplaced i e line he hfirst hline
  have hone : OneLine (o.layout.indentText (v.level + 1) ++ line) :=
    Text.within_append.mpr ⟨Text.within_indentText hl.indent _,
      Text.oneLine_of_mem_lines (List.mem_of_getElem? hline)⟩
  exact ⟨n, hn, hat.getElem?_splitOn hone⟩

section Nested

def outer : ClassDecl where
  name := "a/A"
  access := ⟨1⟩
  superclass := some "java/lang/Object"
  nesting := some [⟨"a/A$B", some "a/A", some "B", ⟨1⟩⟩]
  methods := [{ name := "m", descriptor := "()V", access := ⟨1⟩, lineTable := [⟨0, 7⟩] }]

def inner : ClassDecl where
  name := "a/A$B"
  access := ⟨1⟩
  superclass := some "java/util/List"
  methods := [{ name := "m", descriptor := "()V", access := ⟨1⟩
                lineTable := [⟨0, 3⟩, ⟨0, 4⟩, ⟨5, 4⟩] }]

def nestedBodies : PreparedBodies where
  bodies := [("a/A m ()V", "foo();"), ("a/A$B m ()V", "one();\ntwo();\nthree();")]

def nestedSession : Session Unit :=
  .start (nestedBodies.kit {} Unit) (.ofList [outer, inner]) () .keep

/-- The third line of a body in a nested class. -/
theorem offsets_map_to_lines_nested :
    ∃ file s', nestedSession.write "a/A$B" = .ok (file, s') ∧
      ∃ methods table, file.tables.find? "a/A$B" = some methods ∧
        methods.find? "m ()V" = some table ∧
        ∃ n, table.find? 5 = some n ∧
          (file.text.toList.splitOn '\n')[n]? = some "         three();".toList := by
  have hlib : (Library.ofList [outer, inner]).Worded .oneLine := by
    have hclasses : (Library.ofList [outer, inner]).classes = [outer, inner] := rfl
    have hpool : (Library.ofList [outer, inner]).pool = [] := rfl
    refine ⟨?_, ?_, by simp [hpool]⟩
    · rw [hclasses]
      exact (by decide : ∀ c ∈ [outer, inner], ∀ s ∈ c.texts, OneLine s)
    · rw [hclasses]
      exact (by decide : ∀ c ∈ [outer, inner], ∀ e ∈ c.nestingEntries,
        ∀ s ∈ e.simpleName.toList, OneLine s)
  have hkeys : ∀ c ∈ (Library.ofList [outer, inner]).classes, (c.methods.map (·.key)).Nodup := by
    decide
  have hpolicy : Renaming.Worded .oneLine .keep := trivial
  have htree : ∃ t ∈ nestedSession.forest.trees, "a/A$B" ∈ t.names ∧
      ∃ v ∈ (nestedBodies.kit {} Unit).fileVisits t, (v.key = ("a/A$B", "m ()V") ∧ v.level = 2 ∧
        v.method.lineTable = [⟨0, 3⟩, ⟨0, 4⟩, ⟨5, 4⟩]) ∧
        v.hasBody (nestedBodies.kit {} Unit) = true ∧
        nestedBodies.bodies.lookup (v.method.fullKey v.node.decl) =
          some "one();\ntwo();\nthree();" ∧
        MethodSketch.fate (nestedBodies.kit {} Unit) v
          (some (nestedBodies.render (v.site {}) {}).1.text) = .written := by
    decide +kernel
  obtain ⟨t, ht, hn, v, hv, ⟨hkey, hlevel, htable⟩, hbody, hsource, hwritten⟩ := htree
  obtain ⟨file, s', hwrite, hfile⟩ := offsets_map_to_lines (σ := Unit) {} ⟨rfl, by decide⟩
    nestedBodies (fun _ h => by cases h) hlib hkeys hpolicy () [] t ht "a/A$B" hn
  obtain ⟨methods, table, hmethods, hfound, hlines⟩ :=
    hfile v hv _ ⟨hbody, hsource, by decide, hwritten⟩
  obtain ⟨hname, hmethod⟩ := Prod.mk.inj hkey
  rw [hname] at hmethods
  rw [hmethod] at hfound
  rw [htable, hlevel] at hlines
  exact ⟨file, s', hwrite, methods, table, hmethods, hfound,
    hlines 2 ⟨5, 4⟩ "three();" rfl (by decide) (by decide +kernel)⟩

end Nested

section Declared

def declared : ClassDecl where
  name := "a/A"
  access := ⟨1025⟩
  superclass := some "java/lang/Object"
  methods := [{ name := "m", descriptor := "()V", access := ⟨1025⟩, lineTable := [⟨0, 7⟩] }]

def declaredBodies : PreparedBodies where
  bodies := [("a/A m ()V", "foo();")]

def declaredSession : Session Unit :=
  .start (declaredBodies.kit {} Unit) (.ofList [declared]) () .keep

/-- An abstract method is written, but the body that was prepared for it is not. -/
theorem abstract_body_left_out :
    ({} : Options).layout.LineFed ∧ (∀ c ∈ [declared], ∀ s ∈ c.texts, OneLine s) ∧
      (∃ t ∈ declaredSession.forest.trees, ∃ v ∈ (declaredBodies.kit {} Unit).fileVisits t,
        v.key = ("a/A", "m ()V") ∧ v.method.lineTable = [⟨0, 7⟩] ∧
        declaredBodies.bodies.lookup (v.method.fullKey v.node.decl) = some "foo();") ∧
      (declaredSession.write "a/A").toOption.map (fun r => (r.1.text, r.1.tables.keys)) =
        some ("package a\n\nabstract class A \x7b\n   abstract fun m()\n\x7d\n", []) :=
  ⟨⟨rfl, by decide⟩, by decide, by decide +kernel, by decide +kernel⟩

end Declared

end PreparedBodies

end ClassSketch
