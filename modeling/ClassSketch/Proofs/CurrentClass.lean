import ClassSketch.Proofs.Visits

/-! The class that is current while a body is rendered. A sketch of a tree of classes enters and
leaves many classes and methods. It leaves the scope as it was, and each body that it asks for
belongs to the class that was entered last, which is the class of its method. Any other classes and
methods that lie inside one another are left in the same way. -/

namespace ClassSketch

variable {σ : Type}

/-- What a renderer is told on the way through the visits. -/
def Visit.asked (k : Kit σ) (vs : List Visit) : List BodySite :=
  (vs.filter (·.hasBody k)).map (Visit.site k.options)

theorem Visit.asked_append (k : Kit σ) (vs ws : List Visit) :
    asked k (vs ++ ws) = asked k vs ++ asked k ws := by
  rw [asked, List.filter_append, List.map_append, asked, asked]

theorem Visit.asked_singleton (k : Kit σ) (v : Visit) :
    asked k [v] = MethodSketch.sitesIn k v.node v.method v.level (some v.node.name) := by
  have hbody : v.hasBody k = (MethodShape.ofMethod k v.node v.method).hasBody := rfl
  rw [asked, MethodSketch.sitesIn, List.filter_cons, hbody]
  split
  · rfl
  · rfl

namespace Asks

variable {inside : Option String} (k : Kit σ)

theorem sketchNext (v : Visit) (content : Bool) :
    Asks (some v.node.name) (Visit.asked k [v]) (MethodSketch.sketchNext k v content)
      (MethodSketch.sketchNext k.journaled v content) := by
  rw [Visit.asked_singleton]
  refine .read fun b journal _ => after (.editWhen content fun _ => rfl) fun _ => ?_
  refine (sketchOne k v.node v.method v.level).before fun outcome => ?_
  cases outcome with
  | written => exact .pure _
  | hidden => exact after (.edit fun _ => rfl) fun _ => .pure _
  | failed => exact after (.edit fun _ => rfl) fun _ => .pure _

theorem sketchMethods (n : ClassNode) (level : Nat) (ms : List MethodDecl) (content : Bool) :
    Asks (some n.name) (Visit.asked k (ms.map (⟨level, n, ·⟩)))
      (MethodSketch.sketchFrom k n level content ms)
      (MethodSketch.sketchFrom k.journaled n level content ms) := by
  induction ms generalizing content with
  | nil => exact .pure _
  | cons m ms ih =>
    rw [List.map_cons, ← List.singleton_append, Visit.asked_append, MethodSketch.sketchFrom_cons,
      MethodSketch.sketchFrom_cons]
    exact (sketchNext k ⟨level, n, m⟩ content).bind ih

/-- Members are written in classes of their own, so it does not matter where they stand. -/
theorem sketchMembers (hidden : List String) (level : Nat) {ts : List (Tree ClassNode)}
    (hts : ∀ t ∈ ts, Asks inside (Visit.asked k (TypeSketch.visits k level t))
      (TypeSketch.sketch k level t) (TypeSketch.sketch k.journaled level t)) (content : Bool) :
    Asks inside
      (Visit.asked k ((TypeSketch.emittedAll k hidden level ts).flatMap (Emitted.visits k.options)))
      (TypeSketch.sketchMembers k hidden level content ts)
      (TypeSketch.sketchMembers k.journaled hidden level content ts) := by
  induction ts generalizing content with
  | nil =>
    rw [TypeSketch.sketchMembers, TypeSketch.sketchMembers, TypeSketch.emittedAll]
    exact .pure _
  | cons t ts ih =>
    have hrest := ih fun t ht => hts t (List.mem_cons_of_mem _ ht)
    rw [TypeSketch.sketchMembers, TypeSketch.sketchMembers, TypeSketch.emittedAll]
    by_cases hshown : TypeSketch.isShownMember k.options hidden t.value = true
    · have hshown' : TypeSketch.isShownMember k.journaled.options hidden t.value = true := hshown
      rw [if_pos hshown, if_pos hshown, if_pos hshown', List.flatMap_append, Visit.asked_append]
      refine after (.editWhen content fun _ => rfl) fun _ => ?_
      exact (hts t List.mem_cons_self).bind fun _ => hrest true
    · have hshown' : ¬ TypeSketch.isShownMember k.journaled.options hidden t.value = true := hshown
      rw [if_neg hshown, if_neg hshown, if_neg hshown']
      exact hrest content

theorem sketchInside (level : Nat) (n : ClassNode) {ts : List (Tree ClassNode)}
    (hts : ∀ t ∈ ts, Asks (some n.name) (Visit.asked k (TypeSketch.visits k level t))
      (TypeSketch.sketch k level t) (TypeSketch.sketch k.journaled level t)) :
    Asks (some n.name) (Visit.asked k (TypeSketch.insideVisits k level n ts))
      (TypeSketch.sketchInside k level n ts) (TypeSketch.sketchInside k.journaled level n ts) := by
  rw [TypeSketch.insideVisits, Visit.asked_append]
  refine (sketchFields k n.decl level _).after fun content => ?_
  exact (sketchMethods k n level _ content).bind fun content => sketchMembers k _ level hts content

theorem sketchPlain (level : Nat) (n : ClassNode) {ts : List (Tree ClassNode)}
    (hts : ∀ level, ∀ t ∈ ts, Asks (some n.name) (Visit.asked k (TypeSketch.visits k level t))
      (TypeSketch.sketch k level t) (TypeSketch.sketch k.journaled level t)) :
    Asks (some n.name)
      (Visit.asked k (TypeSketch.insideVisits k (TypeSketch.memberLevel n level) n ts))
      (TypeSketch.sketchPlain k level n ts) (TypeSketch.sketchPlain k.journaled level n ts) := by
  rw [TypeSketch.sketchPlain, TypeSketch.sketchPlain, TypeSketch.memberLevel]
  split
  · exact sketchInside k level n (hts level)
  · refine (header k n level).after fun _ => ?_
    refine (sketchInside k (level + 1) n (hts _)).before fun _ => .edit fun d => ?_
    rw [TypeSketch.closingBrace]
    split
    · rfl
    · rfl

theorem moduleWrite (annotations : List String) (m : ModuleDecl) :
    Asks inside [] (SketchM.edit (ModuleSketch.write annotations m) : SketchM σ Unit)
      (SketchM.edit (ModuleSketch.write annotations m)) := by
  refine .edit fun d => ?_
  simp only [ModuleSketch.write, Draft.writeLine, Draft.writeLines_eq]

theorem sketch (level : Nat) (t : Tree ClassNode) :
    Asks inside (Visit.asked k (TypeSketch.visits k level t)) (TypeSketch.sketch k level t)
      (TypeSketch.sketch k.journaled level t) := by
  -- Members are written inside another class than the tree itself, so `inside` varies.
  induction t generalizing inside level with
  | node n ts ih =>
    rw [TypeSketch.sketch_eq_inScope, TypeSketch.sketch_eq_inScope, TypeSketch.visits_node]
    refine inClass n.name ?_
    cases TypeSketch.moduleOf? n.decl with
    | some m => exact moduleWrite _ m
    | none => exact sketchPlain k level n fun level t ht => ih t ht level

end Asks

section Nested

/-- What is noted of an element: the scope inside it, what lies there, and the scope around it once
more if all of that was finished. -/
def Scope.notedAround (around inner : Scope) (inside : List Scope × Bool) : List Scope × Bool :=
  (inner :: (inside.1 ++ if inside.2 then [around] else []), inside.2)

mutual

/-- The scopes in a tree as they can be read off the tree, where each part has the scope that lies
around it, whatever came before; says also whether there was no breakdown that nobody caught. -/
def ScopeTree.trail (around : Scope) : ScopeTree → List Scope × Bool
  | .classScope name inside =>
    around.notedAround ⟨some name, none⟩ (trailAll ⟨some name, none⟩ inside)
  | .methodScope key inside =>
    around.notedAround ⟨around.className, some key⟩ (trailAll ⟨around.className, some key⟩ inside)
  | .breakdown => ([], false)
  | .caught inside => ((trailAll around inside).1, true)

def ScopeTree.trailAll (around : Scope) : List ScopeTree → List Scope × Bool
  | [] => ([], true)
  | t :: ts =>
    let first := t.trail around
    if first.2 then (first.1 ++ (trailAll around ts).1, (trailAll around ts).2) else first

end

/-- What was noted on the way, added to the log. -/
def ScopeLog.after (log : ScopeLog) (trail : List Scope × Bool) : Bool × ScopeLog :=
  (trail.2, ⟨log.scope, trail.1.reverse ++ log.noted⟩)

theorem Scope.leave_enter (s : Scope) (e : Element) : (s.enter e).1.leave (s.enter e).2 = s := by
  cases e with
  | ofClass name => rfl
  | ofMethod key => rfl

/-- An element is left as it was found if what lies inside it is. -/
theorem ScopeLog.pass_apply {e : Element} {inside : StateM ScopeLog Bool} {log : ScopeLog}
    {trail : List Scope × Bool} (h : ∀ noted, inside ⟨(log.scope.enter e).1, noted⟩ =
      ScopeLog.after ⟨(log.scope.enter e).1, noted⟩ trail) :
    pass e inside log = log.after (log.scope.notedAround (log.scope.enter e).1 trail) := by
  obtain ⟨notes, finished⟩ := trail
  have hleft : inScope e (do note; inside) log =
      (finished, ⟨log.scope, notes.reverse ++ (log.scope.enter e).1 :: log.noted⟩) := by
    have hinside := congrArg (fun r => (r.1, Scoped.withScope r.2
      ((Scoped.scope r.2).leave (log.scope.enter e).2))) (h ((log.scope.enter e).1 :: log.noted))
    -- What was set aside is put back into the scope that was entered, and into no other.
    refine hinside.trans (Prod.ext rfl ?_)
    exact congrArg (fun s => (⟨s, _⟩ : ScopeLog)) (log.scope.leave_enter e)
  have hpass : pass e inside log = (fun r : Bool × ScopeLog =>
      (do
        if r.1 then note
        return r.1 : StateM ScopeLog Bool) r.2) (inScope e (do note; inside) log) := rfl
  rw [hpass, hleft, after, Scope.notedAround]
  cases finished with
  | false =>
    simp only [Bool.false_eq_true, if_false, List.append_nil, List.reverse_cons, List.append_assoc]
    rfl
  | true =>
    simp only [if_true, List.reverse_cons, List.reverse_append, List.reverse_nil, List.append_assoc]
    rfl

mutual

theorem ScopeTree.walk_apply (log : ScopeLog) :
    ∀ t : ScopeTree, t.walk log = log.after (t.trail log.scope)
  | .classScope name inside => by
    rw [walk, trail]
    exact ScopeLog.pass_apply fun noted => walkAll_apply ⟨⟨some name, none⟩, noted⟩ inside
  | .methodScope key inside => by
    rw [walk, trail]
    exact ScopeLog.pass_apply fun noted =>
      walkAll_apply ⟨⟨log.scope.className, some key⟩, noted⟩ inside
  | .breakdown => rfl
  | .caught inside => by
    have hinside := congrArg (fun r => (true, r.2)) (walkAll_apply log inside)
    rw [walk, trail]
    exact hinside

/-- A walk notes the scopes that can be read off, and ends in the scope where it began. -/
theorem ScopeTree.walkAll_apply (log : ScopeLog) :
    ∀ ts : List ScopeTree, walkAll ts log = log.after (trailAll log.scope ts)
  | [] => rfl
  | t :: ts => by
    have hfirst := walk_apply log t
    have hcons : walkAll (t :: ts) log = (fun r : Bool × ScopeLog =>
        (if r.1 then walkAll ts else return false : StateM ScopeLog Bool) r.2) (t.walk log) := by
      rw [walkAll]
      rfl
    rw [hcons, hfirst, trailAll]
    generalize t.trail log.scope = first
    obtain ⟨notes, finished⟩ := first
    cases finished with
    | false => rfl
    | true =>
      have hrest := walkAll_apply ⟨log.scope, notes.reverse ++ log.noted⟩ ts
      refine hrest.trans ?_
      simp only [ScopeLog.after, if_true, List.reverse_append, List.append_assoc]

end

end Nested

namespace TypeSketch

/-- Whatever a renderer does, a sketch ends in the scope where it began. It asks for the bodies of
methods of classes of the tree, each with the name of its own class as the current one. Classes and
methods that lie inside one another are left in the same way, also when something breaks down. -/
theorem scopes_restored (k : Kit σ) (level : Nat) (t : Tree ClassNode) (b : Bench σ)
    (journal : List BodySite) (trees : List ScopeTree) (log : ScopeLog) :
    (sketch k level t b).2.draft.scope = b.draft.scope ∧
      sketch k.journaled level t (b.journaled journal) =
        ((), (sketch k level t b).2.journaled (journal ++
          ((visits k level t).filter (·.hasBody k)).map fun v =>
            ⟨v.node.decl, v.method, v.level + 1, k.options.layout, v.node.name⟩)) ∧
      (∀ v ∈ visits k level t, v.node ∈ t.toList ∧ v.method ∈ v.node.decl.methods) ∧
      ScopeTree.walkAll trees log = ((ScopeTree.trailAll log.scope trees).2,
        ⟨log.scope, (ScopeTree.trailAll log.scope trees).1.reverse ++ log.noted⟩) := by
  obtain ⟨hscope, hrun⟩ := Asks.sketch k level t b journal rfl
  refine ⟨hscope, hrun, fun v hv => ?_, ScopeTree.walkAll_apply log trees⟩
  exact ⟨node_mem_of_mem_visits hv, method_mem_of_mem_visits hv⟩

section Shelf

def shelfMethod (name : String) : MethodDecl := { name, descriptor := "()V", access := ⟨1⟩ }

def shelfNode (name : String) (methods : List MethodDecl) : ClassNode :=
  { ClassNode.ofDecl { name, access := ⟨1⟩, methods } with kind := .member }

def shelfModule : ClassNode :=
  { ClassNode.ofDecl
      { name := "a/S$M", access := AccessFlags.moduleFlag, module := some { name := "m" },
        methods := [shelfMethod "lost"] } with kind := .member }

/-- A class with a member, a module among the members, and a member that stands after them. -/
def shelf : Tree ClassNode :=
  .node (shelfNode "a/S" [shelfMethod "run", { shelfMethod "bare" with access := ⟨1025⟩ }])
    [.node (shelfNode "a/S$In" [shelfMethod "go"])
      [.leaf (shelfNode "a/S$In$Deep" [shelfMethod "dig"])],
     .leaf shelfModule, .leaf (shelfNode "a/S$Out" [shelfMethod "end"])]

/-- Breaks down in the innermost class, and fails in the one around it. -/
def shelfBody (site : BodySite) : Except BodyFailure Body :=
  if site.currentClass = "a/S$In$Deep" then .error (.crash none)
  else if site.currentClass = "a/S$In" then .error (.io "gone")
  else .ok { text := "work();\n" }

def shelfKit : Kit Unit := ⟨{}, { body := fun site t => return (shelfBody site, t) }⟩

def shelfScope : Scope := ⟨some "a/Caller", some "call ()V"⟩

def shelfBench : Bench Unit :=
  ⟨⟨⟨.ofList [], []⟩, (), [], []⟩, { Draft.ofRoot "a/S" {} with scope := shelfScope }⟩

/-- One breakdown is caught two elements further out, and another by nobody. -/
def shelfScopes : List ScopeTree :=
  [.classScope "A" [.methodScope "f" [.caught [.classScope "B" [.methodScope "g" [.breakdown]]],
    .methodScope "h" []]], .breakdown, .classScope "C" []]

theorem scopes_restored_shelf :
    (sketch shelfKit 0 shelf shelfBench).2.draft.scope = shelfScope ∧
      (sketch shelfKit.journaled 0 shelf (shelfBench.journaled [])).2.shop.memory.2.map
          (fun site => (site.method.name, site.currentClass)) =
        [("run", "a/S"), ("go", "a/S$In"), ("dig", "a/S$In$Deep"), ("end", "a/S$Out")] ∧
      (∀ v ∈ visits shelfKit 0 shelf, v.node ∈ shelf.toList ∧ v.method ∈ v.node.decl.methods) ∧
      ScopeTree.walkAll shelfScopes ⟨shelfScope, []⟩ = (false, ⟨shelfScope,
        [shelfScope, ⟨some "A", none⟩, ⟨some "A", some "f"⟩, ⟨some "A", some "h"⟩,
          ⟨some "B", some "g"⟩, ⟨some "B", none⟩, ⟨some "A", some "f"⟩, ⟨some "A", none⟩]⟩) := by
  obtain ⟨hscope, hrun, hvisits, hwalk⟩ :=
    scopes_restored shelfKit 0 shelf shelfBench [] shelfScopes ⟨shelfScope, []⟩
  refine ⟨hscope, ?_, hvisits, ?_⟩
  · rw [hrun]
    decide +kernel
  · rw [hwalk]
    rfl

end Shelf

end TypeSketch

end ClassSketch
