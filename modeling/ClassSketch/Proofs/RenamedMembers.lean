import ClassSketch.Proofs.Corrections
import ClassSketch.Proofs.Provenance
import ClassSketch.Proofs.ShortNames
import ClassSketch.Render.Prepared

/-! Renamed classes and the names by which they are called. A member that was renamed is declared
under its new name, but references are spelled from its internal name, which still ends in the old
one. -/

namespace ClassSketch

namespace Name

def isDivider (c : Char) : Bool := c == '/' || c == '$' || c == '.'

/-- The part of a name after all that divides it. -/
def lastPart (name : String) : String :=
  String.ofList (name.toList.reverse.takeWhile fun c => !isDivider c).reverse

/-- What stands after the last dot once some characters were replaced by dots. -/
theorem afterLast_replaceChars (p : Char → Bool) (s : String) :
    afterLast '.' (replaceChars p '.' s).toList =
      (s.toList.reverse.takeWhile fun c => !(p c || c == '.')).reverse := by
  have hsame : ∀ c ∈ s.toList.reverse.takeWhile fun c => !(p c || c == '.'),
      (if p c then '.' else c) = c := by
    intro c hc
    have hfree := List.all_eq_true.mp List.all_takeWhile c hc
    simp only [Bool.not_eq_true', Bool.or_eq_false_iff] at hfree
    rw [hfree.1]
    rfl
  have htest : ((· != '.') ∘ fun c => if p c then '.' else c) = fun c => !(p c || c == '.') := by
    funext c
    cases hp : p c <;> simp [hp, bne]
  rw [afterLast, replaceChars, String.toList_ofList, ← List.map_reverse, List.takeWhile_map, htest,
    List.map_congr_left hsame, List.map_id']

theorem afterLast_qualified (name : String) :
    afterLast '.' (qualified name).toList = (lastPart name).toList := by
  rw [qualified, afterLast_replaceChars, lastPart, String.toList_ofList]
  rfl

theorem afterLast_nestedPath (name : String) :
    afterLast '.' (nestedPath name).toList = (lastPart name).toList := by
  have htest : (fun c => decide ((!(c == '$' || c == '.')) = true ∧ (c != '/') = true)) =
      fun c => !isDivider c := by
    funext c
    rw [isDivider]
    cases c == '$' <;> cases c == '.' <;> cases hc : c == '/' <;> simp [bne, hc]
  rw [nestedPath, afterLast_replaceChars, simple, afterLast, String.toList_ofList,
    List.reverse_reverse, List.takeWhile_takeWhile, htest, lastPart, String.toList_ofList]

theorem lastPart_append_dollar (enclosing simple : String) :
    lastPart (enclosing ++ "$" ++ simple) = lastPart simple := by
  have hchars : (enclosing ++ "$" ++ simple).toList.reverse =
      simple.toList.reverse ++ '$' :: enclosing.toList.reverse := by simp
  have hstop : ('$' :: enclosing.toList.reverse).takeWhile (fun c => !isDivider c) = [] := rfl
  rw [lastPart, hchars, List.takeWhile_append, hstop, List.append_nil, lastPart]
  split
  · next h => rw [(List.takeWhile_prefix _).eq_of_length h]
  · rfl

end Name

/-- However a class comes to be spelled, the spelling ends as its internal name does. -/
theorem Imports.afterLast_shortName (name : String) (i : Imports) :
    Name.afterLast '.' (shortName name i).1.toList = (Name.lastPart name).toList := by
  rw [(answered_shortName name i).answer_eq, spelling]
  split
  · exact Name.afterLast_nestedPath name
  · exact Name.afterLast_qualified name

/-- A claim about a member takes its old name from the class's internal name. -/
def Claim.NamesMember (c : Claim) : Prop :=
  c.kind = .member → ∃ simple name, c.inner = c.enclosing ++ "$" ++ simple ∧
    c.simpleName = some name ∧ c.renamedFrom = if name = simple then none else some simple

theorem Ground.inner_eq_of_fits {e : NestingEntry} {simple enclosing : String}
    (hs : e.simpleName = some simple) (h : fits e enclosing .member = true) :
    e.inner = enclosing ++ "$" ++ simple := by
  simp only [fits, hs] at h
  exact eq_of_beq h

theorem Ground.kind_eq_member {g : Ground} {host d : ClassDecl} {c : Claim}
    (h : g.kindUnder host d c = .member) : c.kind = .member := by
  rw [kindUnder] at h
  split at h
  · cases h
  · exact h

namespace Census

theorem settled_add {P : Claim → Prop} {c : Census} (h : ∀ d ∈ c.table.settled, P d) (warn : Bool)
    {claim : Claim} (hclaim : P claim) : ∀ d ∈ (c.add warn claim).table.settled, P d := by
  intro d hd
  rcases ClaimTable.mem_settle hd with rfl | hd
  · exact hclaim
  · exact h d hd

theorem namesMember_readEntry (g : Ground) (source : String) {c : Census} (e : NestingEntry)
    (h : ∀ d ∈ c.table.settled, d.NamesMember) :
    ∀ d ∈ (readEntry g source c e).table.settled, d.NamesMember := by
  cases hs : e.simpleName with
  | none =>
    have hkind : g.entryKind e = .anonymous := by rw [Ground.entryKind, hs]
    simp only [readEntry, hs]
    split
    · exact h
    · refine settled_add h _ fun hmember => ?_
      rw [hkind] at hmember
      cases hmember
  | some simple =>
    have htable := table_chooseName c e.inner simple
    simp only [readEntry, hs]
    generalize c.chooseName e.inner simple = r at htable ⊢
    have hr : ∀ d ∈ r.2.table.settled, d.NamesMember := by
      rw [htable]
      exact h
    split
    · exact hr
    · next hmakes =>
      refine settled_add hr _ fun hmember => ?_
      simp only [Bool.or_eq_true, Bool.not_eq_true', not_or, Bool.not_eq_false] at hmakes
      have hmember : g.entryKind e = .member := hmember
      have hinner := Ground.inner_eq_of_fits hs (hmember ▸ hmakes.1.2)
      refine ⟨simple, r.1, hinner, rfl, ?_⟩
      by_cases hname : r.1 = simple <;> simp [hname]

theorem namesMember_take (g : Ground) (policy : Renaming) :
    ∀ d ∈ (take g policy).table.settled, d.NamesMember := by
  let P : Census → Prop := fun c => ∀ d ∈ c.table.settled, d.NamesMember
  have hstart : P { policy } := fun _ h => by cases h
  refine List.foldlRecOn (motive := P) _ _ hstart fun c hc d _ => ?_
  exact List.foldlRecOn (motive := P) _ _ hc fun c hc e _ => namesMember_readEntry g d.name e hc

end Census

/-- A member has its names from the claim that was settled on. -/
theorem Forest.exists_claim_of_member {l : Library} {o : Options} {policy : Renaming}
    {tree : ClassTree} (ht : tree ∈ (build l o policy).1.trees) {n : ClassNode}
    (hn : n ∈ tree.nodes) (hkind : n.kind = .member) :
    ∃ s ∈ (Census.take (.ofLibrary l o) policy).table.settled, s.kind = .member ∧
      s.inner = n.name ∧ n.simpleName = s.simpleName ∧ n.renamedFrom = s.renamedFrom := by
  obtain ⟨w, hs, hf⟩ := build_eq_ofLinks l o policy
  rw [hf] at ht
  obtain ⟨b, rfl⟩ := ofLinks_numbered _ _ tree ht
  obtain ⟨r, hr, rfl⟩ := Tree.exists_row none 0 hn
  rw [← ClassTree.rows_ofTree] at hr
  cases hq : r.parent with
  | none =>
    rw [(hs.row_root ht hr hq).1] at hkind
    cases hkind
  | some q =>
    obtain ⟨s, hclaim, _, hnode⟩ := hs.row_under ht hr hq
    rw [ClaimTable.claim?] at hclaim
    have hsame := congrArg ClassNode.kind hnode
    have hmember : s.kind = .member := Ground.kind_eq_member (hsame.symm.trans hkind)
    refine ⟨s, List.mem_of_find?_eq_some hclaim, hmember, ?_, congrArg ClassNode.simpleName hnode,
      congrArg ClassNode.renamedFrom hnode⟩
    have hinner := List.find?_some hclaim
    exact eq_of_beq hinner

/-- For every library, options and renaming: a renamed member is declared under a name that differs
from the old one, its internal name is that of the class around it, a dollar and the old name, and
whatever short names were given away before, a reference to it ends as the old name does. So it ends
in the new name only if the old one does, and never if the old name is not divided. -/
theorem renamed_member_spelled_by_old_name (l : Library) (o : Options) (policy : Renaming)
    {tree : ClassTree} (ht : tree ∈ (Forest.build l o policy).1.trees) {n : ClassNode}
    (hn : n ∈ tree.nodes) (hkind : n.kind = .member) {old : String}
    (hold : n.renamedFrom = some old) :
    n.displayName ≠ old ∧ (∃ enclosing, n.name = enclosing ++ "$" ++ old) ∧
      ∀ i : Imports,
        let spelled := (Imports.shortName n.name i).1
        Name.afterLast '.' spelled.toList = (Name.lastPart old).toList ∧
          (Name.afterLast '.' spelled.toList = n.displayName.toList ↔
            Name.lastPart old = n.displayName) ∧
          (Name.lastPart old = old → Name.afterLast '.' spelled.toList ≠ n.displayName.toList) := by
  obtain ⟨enclosing, hname, hne⟩ : ∃ enclosing, n.name = enclosing ++ "$" ++ old ∧
      n.displayName ≠ old := by
    obtain ⟨s, hs, hmember, hinner, hsimple, hrenamed⟩ :=
      Forest.exists_claim_of_member ht hn hkind
    obtain ⟨simple, name, hdivided, hname, hfrom⟩ := Census.namesMember_take _ _ s hs hmember
    rw [hold, hfrom] at hrenamed
    split at hrenamed
    · cases hrenamed
    · next hne =>
      obtain rfl := Option.some.inj hrenamed
      refine ⟨s.enclosing, hinner.symm.trans hdivided, ?_⟩
      rw [ClassNode.displayName, hsimple, hname]
      exact hne
  refine ⟨hne, ⟨enclosing, hname⟩, fun i => ?_⟩
  have hend : Name.afterLast '.' (Imports.shortName n.name i).1.toList =
      (Name.lastPart old).toList := by
    rw [Imports.afterLast_shortName, hname, Name.lastPart_append_dollar]
  refine ⟨hend, ?_, fun hwhole => ?_⟩
  · rw [hend, String.toList_inj]
  · rw [hend, hwhole]
    exact fun h => hne (String.toList_inj.mp h).symm

/-- A class with a member whose name is a reserved word, and a field of that type. -/
def reservedMember : Library :=
  .ofList [
    { name := "a/O", access := .publicFlag
      fields := [{ name := "f", descriptor := "La/O$if;", access := .publicFlag }]
      nesting := some
        [{ inner := "a/O$if", outer := some "a/O", simpleName := some "if", access := .publicFlag }] },
    { name := "a/O$if", access := .publicFlag }]

theorem reservedMember_spelled_by_old_name :
    ∃ tree ∈ (Forest.build reservedMember {} (.numbered 0)).1.trees, ∃ n ∈ tree.nodes,
      n.kind = .member ∧ n.renamedFrom = some "if" ∧ n.displayName = "class_1" ∧
        ∀ i : Imports, Name.afterLast '.' (Imports.shortName n.name i).1.toList = ['i', 'f'] := by
  have hfound : ((Forest.build reservedMember {} (.numbered 0)).1.trees.any fun t =>
      t.nodes.any fun n => n.kind == .member && n.renamedFrom == some "if" &&
        n.displayName == "class_1") = true := by
    decide +kernel
  obtain ⟨tree, ht, hnode⟩ := List.any_eq_true.mp hfound
  obtain ⟨n, hn, hnamed⟩ := List.any_eq_true.mp hnode
  simp only [Bool.and_eq_true, beq_iff_eq] at hnamed
  obtain ⟨⟨hkind, hold⟩, hdisplay⟩ := hnamed
  refine ⟨tree, ht, n, hn, hkind, hold, hdisplay, fun i => ?_⟩
  exact ((renamed_member_spelled_by_old_name _ _ _ ht hn hkind hold).2.2 i).1

/-- The file declares the member under its new name and calls it by the old one. -/
theorem reservedMember_called_by_old_name :
    let kit : Kit Unit := ⟨{}, ({} : PreparedBodies).renderer Unit⟩
    let s := Session.start kit reservedMember () (.numbered 0)
    (∃ tree ∈ s.forest.trees, ∃ n ∈ tree.nodes, n.kind = .member ∧ n.renamedFrom = some "if" ∧
      Name.afterLast '.' (Imports.shortName n.name (.ofRoot tree.root.name)).1.toList ≠
        n.displayName.toList) ∧
    s.writeAll.1.map (·.text) =
      ["package a\n\nopen class O \x7b\n   var f: O.if = null\n\n" ++
        "   // $FF: renamed from: if\n   open inner class class_1 \x7b\n   \x7d\n\x7d\n"] := by
  refine ⟨?_, by decide +kernel⟩
  have hfound : ((Forest.build reservedMember {} (.numbered 0)).1.trees.any fun t =>
      t.nodes.any fun n => n.kind == .member && n.renamedFrom == some "if" &&
        Name.afterLast '.' (Imports.shortName n.name (.ofRoot t.root.name)).1.toList !=
          n.displayName.toList) = true := by
    decide +kernel
  obtain ⟨tree, ht, hnode⟩ := List.any_eq_true.mp hfound
  obtain ⟨n, hn, hnamed⟩ := List.any_eq_true.mp hnode
  simp only [Bool.and_eq_true, beq_iff_eq, bne_iff_ne] at hnamed
  exact ⟨tree, ht, n, hn, hnamed.1.1, hnamed.1.2, hnamed.2⟩

end ClassSketch
