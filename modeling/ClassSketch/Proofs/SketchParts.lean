import ClassSketch.Sketch.Workshop

/-! Parts that several sketches share. Types are written with the short names of the file and with
nothing else of the bench; the lines before a declaration change the text and the line counter. -/

namespace ClassSketch

namespace SketchM

variable {σ : Type}

/-- An action on the short names of the file. -/
def inImports {α : Type} (act : StateM Imports α) : SketchM σ α := fun b =>
  let r := act b.draft.imports
  (r.1, { b with draft := { b.draft with imports := r.2 } })

mutual

theorem display_eq_inImports : ∀ t : JType,
    (t.display shortName : SketchM σ String) = inImports (t.display Imports.shortName)
  | .prim p d => by
    rw [JType.display, JType.display]
    rfl
  | .var v d => by
    rw [JType.display, JType.display]
    rfl
  | .named n as d => by
    have hname : (shortName n : SketchM σ String) = inImports (Imports.shortName n) := rfl
    rw [JType.display, JType.display, hname, displayArgs_eq_inImports as]
    rfl

theorem displayArg_eq_inImports : ∀ a : TypeArg,
    (JType.displayArg shortName a : SketchM σ String) =
      inImports (JType.displayArg Imports.shortName a)
  | .wildcard => by
    rw [JType.displayArg, JType.displayArg]
    rfl
  | .exact t => by
    rw [JType.displayArg, JType.displayArg, display_eq_inImports t]
  | .upper t => by
    rw [JType.displayArg, JType.displayArg, display_eq_inImports t]
    rfl
  | .lower t => by
    rw [JType.displayArg, JType.displayArg, display_eq_inImports t]
    rfl

theorem displayArgs_eq_inImports : ∀ as : List TypeArg,
    (JType.displayArgs shortName as : SketchM σ (List String)) =
      inImports (JType.displayArgs Imports.shortName as)
  | [] => by
    rw [JType.displayArgs, JType.displayArgs]
    rfl
  | a :: as => by
    rw [JType.displayArgs, JType.displayArgs, displayArg_eq_inImports a,
      displayArgs_eq_inImports as]
    rfl

end

theorem typeText_eq_inImports (t : JType) :
    (typeText t : SketchM σ String) = inImports (t.display Imports.shortName) :=
  display_eq_inImports t

theorem typeTexts_eq_inImports (ts : List JType) : (typeTexts ts : SketchM σ (List String)) =
    inImports (ts.mapM fun t => t.display Imports.shortName) := by
  induction ts with
  | nil => rfl
  | cons t ts ih =>
    rw [typeTexts, typeText_eq_inImports, ih, List.mapM_cons]
    rfl

end SketchM

/-- A line with its indent and its end. -/
def Text.Layout.fullLine (l : Text.Layout) (level : Nat) (s : String) : String :=
  l.indentText level ++ s ++ l.separator

theorem Draft.writeLines_eq (level : Nat) (ss : List String) (d : Draft) :
    d.writeLines level ss =
      { d with
        buffer := d.buffer.append (String.join (ss.map (d.buffer.layout.fullLine level)))
        line := d.line + ss.length } := by
  induction ss generalizing d with
  | nil =>
    simp only [writeLines, List.foldl_nil, List.map_nil, String.join_nil, Text.Buffer.append,
      String.append_empty, List.length_nil, Nat.add_zero]
  | cons s ss ih =>
    have hrest := ih (d.writeLine level s)
    have hbuffer : (d.writeLine level s).buffer =
        d.buffer.append (d.buffer.layout.fullLine level s) := by
      simp only [writeLine, Text.Buffer.appendLine, Text.Buffer.appendIndent, Text.Buffer.endLine,
        Text.Buffer.append, Text.Layout.fullLine, String.append_assoc]
    rw [writeLines, List.foldl_cons, ← writeLines, hrest, hbuffer]
    simp only [writeLine, Text.Buffer.append, List.map_cons, String.join_cons, List.length_cons,
      String.append_assoc, Nat.add_assoc, Nat.add_comm 1]

/-- The lines that stand before a declaration. -/
def leadTexts (deprecated : Bool) (annotations remarks : List String) : List String :=
  (if deprecated then ["/** @deprecated */"] else []) ++
    (remarks.map ("// $FF: " ++ ·) ++ annotations.map annotationText)

theorem leadLines_eq_writeLines (deprecated : Bool) (annotations remarks : List String)
    (level : Nat) (d : Draft) : leadLines deprecated annotations remarks level d =
      d.writeLines level (leadTexts deprecated annotations remarks) := by
  have hremarks : ∀ d : Draft, remarks.foldl (fun d s => d.remark level s) d =
      d.writeLines level (remarks.map ("// $FF: " ++ ·)) := by
    intro d
    rw [Draft.writeLines, List.foldl_map]
    rfl
  rw [leadLines, hremarks, leadTexts]
  simp only [Draft.writeLines, List.foldl_append]
  cases deprecated <;> rfl

end ClassSketch
