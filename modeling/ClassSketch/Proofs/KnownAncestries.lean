import ClassSketch.Proofs.Ancestors
import ClassSketch.Proofs.Sketching

/-! What was kept from earlier searches does not show. Two searches run side by side over one library,
with other ancestries known to each: they give the same answer, and if they fail, they fail at the
same class. -/

namespace ClassSketch

namespace Library.Answers

variable {l : Library} {name : String} {a : Ancestry} {r : Except AncestryError Ancestry}

theorem eq_of_ok (h : l.Answers name (.ok a)) (hr : l.Answers name r) : r = .ok a := by
  cases h with
  | found listed traced =>
    cases hr with
    | found _ traced' => rw [traced'.unique traced]
    | unknown missing => exact absurd missing listed
    | looping _ _ hloop => exact absurd hloop (not_looping_of_acc traced.covers.grounded)

end Library.Answers

namespace Keeps

variable {ς α β γ : Type} {R : ς → ς → Prop}

theorem get {Q : α → β → Prop} {f : ς → StateM ς α} {f' : ς → StateM ς β}
    (h : ∀ g g', R g g' → Keeps R Q (f g) (f' g')) :
    Keeps R Q (MonadState.get >>= f) (MonadState.get >>= f') :=
  fun g g' hg => h g g' hg g g' hg

theorem fst_get {f f' : ς → StateM ς γ} {g g' : ς} (h : (f g g).1 = (f' g' g').1) :
    ((MonadState.get >>= f) g).1 = ((MonadState.get >>= f') g').1 :=
  h

theorem fst_bind {K : α → Prop} {a a' : StateM ς α} {f f' : α → StateM ς γ} {g g' : ς}
    (h : Keeps R (Same K) a a') (hf : ∀ x {g g'}, K x → R g g' → (f x g).1 = (f' x g').1)
    (hg : R g g') : ((a >>= f) g).1 = ((a' >>= f') g').1 := by
  obtain ⟨⟨hx, hk⟩, hr⟩ := h g g' hg
  have hrun : ((a' >>= f') g').1 = (f' (a' g').1 (a' g').2).1 := rfl
  rw [hrun, ← hx]
  exact hf _ hk hr

end Keeps

namespace Genealogy

/-- Both know only what a search would find. -/
def BothSound (l : Library) (g g' : Genealogy) : Prop := Sound l g ∧ Sound l g'

variable {l : Library} {g g' : Genealogy} {below : List String} {name : String}
  {find : List String → String → StateM Genealogy (Except AncestryError Ancestry)}

theorem keeps_signature? {c : ClassDecl} (hc : c ∈ l.classes) :
    Keeps (BothSound l) (Same (· = l.served c)) (signature? c) (signature? c) := by
  rintro g g' ⟨hg, hg'⟩
  obtain ⟨hs, hsound⟩ := hg.signature hc
  obtain ⟨hs', hsound'⟩ := hg'.signature hc
  exact ⟨⟨hs.trans hs'.symm, hs⟩, hsound, hsound'⟩

theorem keeps_argumentsFor (d : String) (t : JType) :
    Keeps (BothSound l) (Same fun _ => True) (argumentsFor d t) (argumentsFor d t) := by
  rintro g g' ⟨hg, hg'⟩
  obtain ⟨hs, hsound⟩ := hg.argumentsFor d t
  obtain ⟨hs', hsound'⟩ := hg'.argumentsFor d t
  exact ⟨⟨hs.trans hs'.symm, trivial⟩, hsound, hsound'⟩

theorem keeps_collect {c : String}
    {find : String → StateM Genealogy (Except AncestryError Ancestry)}
    (hfind : ∀ {d}, l.Extends c d →
      Keeps (BothSound l) (Same fun _ => True) (find d) (find d))
    {ts : List JType} (hts : ∀ t ∈ ts, t ∈ l.directSupertypes c)
    (found : Table String Substitution) :
    Keeps (BothSound l) (Same fun _ => True) (collect find ts found) (collect find ts found) := by
  induction ts generalizing found with
  | nil => exact .pure ⟨rfl, trivial⟩
  | cons t ts ih =>
    obtain ⟨ht, hts⟩ := List.forall_mem_cons.mp hts
    rw [collect]
    cases hd : t.className? with
    | none => exact ih hts found
    | some d =>
      obtain ⟨i, hi⟩ := List.mem_iff_getElem?.mp ht
      refine (keeps_argumentsFor d t).bindSame fun arguments _ => .get ?_
      rintro g g' ⟨hg, hg'⟩
      rw [hg.find?, hg'.find?]
      cases l.find? d with
      | none => exact ih hts _
      | some _ =>
        refine (hfind ⟨i, t, hi, hd⟩).bindSame fun r _ => ?_
        cases r with
        | error e => exact .pure ⟨rfl, trivial⟩
        | ok inherited => exact ih hts _

/-- The step of a search for a class whose ancestry is not known. -/
def climb (find : List String → String → StateM Genealogy (Except AncestryError Ancestry))
    (below : List String) (name : String) : StateM Genealogy (Except AncestryError Ancestry) := do
  if below.contains name then return .error (.cycle name)
  match (← get).library.find? name with
  | none => return .error (.unknownClass name)
  | some c =>
    let s ← signature? c
    match ← collect (find (name :: below)) (supertypes c s) [(name, identity s)] with
    | .error e => return .error e
    | .ok ancestors =>
      let a : Ancestry := ⟨name, ancestors⟩
      modify fun g => { g with known := (name, a) :: g.known }
      return .ok a

theorem seek_of_known {a : Ancestry} (h : g.known.lookup name = some a) :
    seek find below name g = (.ok a, g) := by
  show seek find below name g =
    ((get : StateM Genealogy Genealogy) >>= fun _ => pure (Except.ok a)) g
  refine Ends.get_congr ?_
  rw [h]

theorem seek_of_unknown (h : g.known.lookup name = none) :
    seek find below name g = climb find below name g := by
  show seek find below name g = (get >>= fun _ => climb find below name) g
  refine Ends.get_congr ?_
  rw [h]
  rfl

/-- A step keeps the ancestry that it answers with. -/
theorem ends_climb : Ends (climb find below name) g fun r g =>
    ∀ a, r = .ok a → g.known.lookup name = some a := by
  rw [climb]
  split
  · exact .pure fun _ h => by cases h
  · refine .get ?_
    cases g.library.find? name with
    | none => exact .pure fun _ h => by cases h
    | some c =>
      refine .bind (P := fun _ _ => True) trivial fun s _ _ => ?_
      refine .bind (P := fun _ _ => True) trivial fun r _ _ => ?_
      cases r with
      | error e => exact .pure fun _ h => by cases h
      | ok ancestors =>
        rintro a ⟨⟩
        exact List.lookup_cons_self

theorem lookup_of_seek {a : Ancestry} (h : (seek find below name g).1 = .ok a) :
    (seek find below name g).2.known.lookup name = some a := by
  cases hknown : g.known.lookup name with
  | some b =>
    rw [seek_of_known hknown] at h ⊢
    rw [hknown, Except.ok.inj h]
  | none =>
    rw [seek_of_unknown hknown] at h ⊢
    exact ends_climb a h

theorem fst_climb_congr (hchain : l.Chain below name)
    (hfind : ∀ {d}, l.Chain (name :: below) d →
      Keeps (BothSound l) (Same fun _ => True) (find (name :: below) d) (find (name :: below) d))
    (hg : BothSound l g g') : (climb find below name g).1 = (climb find below name g').1 := by
  rw [climb]
  split
  · rfl
  · next hmem =>
    have hnew : name ∉ below := fun hm => hmem (List.contains_iff_mem.mpr hm)
    refine Keeps.fst_get ?_
    rw [hg.1.find?, hg.2.find?]
    cases hc : l.find? name with
    | none => rfl
    | some c =>
      have hlisted : l.find? name ≠ none := by simp [hc]
      refine (keeps_signature? (List.mem_of_find?_eq_some hc)).fst_bind (fun s {g g'} hs hg => ?_) hg
      have hsupertypes : ∀ t ∈ supertypes c s, t ∈ l.directSupertypes name := by
        rw [hs, Library.directSupertypes_of_find? hc]
        exact fun _ ht => ht
      have hcollect := keeps_collect (fun hstep => hfind (hchain.up hnew hlisted hstep)) hsupertypes
        [(name, identity s)]
      refine hcollect.fst_bind (fun r {g g'} _ _ => ?_) hg
      cases r <;> rfl

/-- Whatever either of them knows, two searches give the same answer. -/
theorem keeps_search {n : Nat} (hchain : l.Chain below name) (hn : l.size < n + below.length) :
    Keeps (BothSound l) (Same fun _ => True) (search n below name) (search n below name) := by
  induction n generalizing below name with
  | zero =>
    have := hchain.length_le
    omega
  | succ n ih =>
    rintro g g' ⟨hg, hg'⟩
    have hsearch := fun {g} (hg : Sound l g) =>
      hg.searchOr (fun name => .error (.cycle name)) hchain hn
    rw [searchOr_cycle] at hsearch
    obtain ⟨hanswer, hsound⟩ := hsearch hg
    obtain ⟨hanswer', hsound'⟩ := hsearch hg'
    refine ⟨⟨?_, trivial⟩, hsound, hsound'⟩
    -- An ancestry that either of them knows is the answer of both; otherwise both climb.
    rw [search_succ] at hanswer hanswer' ⊢
    cases hknown : g.known.lookup name with
    | some a =>
      rw [seek_of_known hknown]
      exact ((hg.known hknown).eq_of_ok hanswer').symm
    | none =>
      cases hknown' : g'.known.lookup name with
      | some a =>
        rw [seek_of_known hknown']
        exact (hg'.known hknown').eq_of_ok hanswer
      | none =>
        rw [seek_of_unknown hknown, seek_of_unknown hknown']
        refine fst_climb_congr hchain (fun hup => ih hup ?_) ⟨hg, hg'⟩
        rw [List.length_cons]
        omega

theorem keeps_ancestry (l : Library) (name : String) :
    Keeps (BothSound l) (Same fun _ => True) (ancestry name) (ancestry name) := by
  rintro g g' ⟨hg, hg'⟩
  rw [ancestry, ancestry, hg.size, hg'.size]
  exact keeps_search (.nil l name) (Nat.lt_succ_self _) g g' ⟨hg, hg'⟩

/-- What is kept of a class is the ancestry that was found for it; nothing is kept of a failure. -/
theorem Sound.lookup_ancestry (h : Sound l g) (name : String) :
    (Genealogy.ancestry name g).2.known.lookup name = (Genealogy.ancestry name g).1.toOption := by
  obtain ⟨hanswer, hsound⟩ := h.ancestry name
  cases hr : (Genealogy.ancestry name g).1 with
  | ok a =>
    rw [Genealogy.ancestry, search_succ] at hr ⊢
    exact lookup_of_seek hr
  | error e =>
    cases hknown : (Genealogy.ancestry name g).2.known.lookup name with
    | none => rfl
    | some a =>
      have hok := (hsound.known hknown).eq_of_ok hanswer
      rw [hr] at hok
      cases hok

/-- A question about a class: its ancestors, the values of the variables of one of them, or the
value of one variable. -/
inductive Question where
  | ancestors (name : String)
  | values (name ancestor : String)
  | value (name ancestor variableName : String)

/-- The answer to a question. -/
inductive Reply where
  | ancestors (found : Ancestry)
  | values (found : Option Substitution)
  | value (found : Option JType)

namespace Question

def about : Question → String
  | ancestors name | values name _ | value name _ _ => name

/-- The part of an ancestry that answers a question. -/
def select : Question → Ancestry → Reply
  | ancestors _, a => .ancestors a
  | values _ ancestor, a => .values (a.substitution? ancestor)
  | value _ ancestor variableName, a => .value (a.resolve? ancestor variableName)

def ask (q : Question) : StateM Genealogy (Except AncestryError Reply) := do
  return (← ancestry q.about).map q.select

end Question

/-- A library after some questions, of which some may have failed. -/
def consulted (l : Library) (questions : List Question) : Genealogy :=
  questions.foldl (fun g q => (q.ask g).2) { library := l }

theorem sound_consulted (l : Library) (questions : List Question) :
    Sound l (consulted l questions) := by
  suffices h : ∀ g, Sound l g → Sound l (questions.foldl (fun g q => (q.ask g).2) g) from
    h _ (sound_start l)
  induction questions with
  | nil => exact fun _ h => h
  | cons q questions ih => exact fun g h => ih _ (h.ancestry q.about).2

/-- Earlier questions do not show: the next one is answered as if it were the first, also if it
fails. The ancestry that was found is kept, and nothing is kept of a failure. -/
theorem ask_after_questions (l : Library) (questions : List Question) (q : Question) :
    let g := consulted l questions
    (q.ask g).1 = (q.ask { library := l }).1 ∧
      (q.ask g).1 = (q.ask { library := g.library }).1 ∧
      (q.ask g).2.known.lookup q.about = (ancestry q.about { library := l }).1.toOption := by
  intro g
  have hg : Sound l g := sound_consulted l questions
  have hempty : Sound l { library := g.library } := ⟨⟨hg.classes, hg.mode, hg.served⟩, nofun⟩
  have hsame {g'} (hg' : Sound l g') : (ancestry q.about g).1 = (ancestry q.about g').1 :=
    (keeps_ancestry l q.about g g' ⟨hg, hg'⟩).1.1
  refine ⟨?_, ?_, ?_⟩
  · exact congrArg (Except.map q.select) (hsame (sound_start l))
  · exact congrArg (Except.map q.select) (hsame hempty)
  · rw [← hsame (sound_start l)]
    exact hg.lookup_ancestry q.about

end Genealogy

end ClassSketch
