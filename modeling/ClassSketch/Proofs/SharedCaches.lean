import ClassSketch.Proofs.Histories
import ClassSketch.Proofs.KnownAncestries

/-! Files that are written at the same time share the pool of signatures and the known ancestries.
A search is taken apart into single accesses to these two, and between its accesses other workers
make theirs. No access breaks what the library says, so each search finds what it finds alone, and
each file is the one that is written first. -/

namespace ClassSketch

open Relation

theorem Genealogy.Sound.pool {l : Library} {g : Genealogy} (h : Sound l g) {c : ClassDecl}
    (hc : c ∈ l.classes) {s : Option ClassSignature} (hs : s = l.served c) :
    Sound l { g with library := { g.library with pool := (c.name, s) :: g.library.pool } } where
  classes := h.classes
  mode := h.mode
  served d hd := by
    have hserved := h.served d hd
    cases hmode : g.library.mode with
    | pooled =>
      rw [Library.served, hmode] at hserved ⊢
      dsimp only at hserved ⊢
      rw [List.lookup_cons]
      by_cases hname : d.name = c.name
      · obtain rfl := Library.eq_of_name hd hc hname
        simpa using hs
      · rwa [beq_false_of_ne hname]
    | plain =>
      rw [Library.served, hmode] at hserved ⊢
      exact hserved
    | unreadable =>
      rw [Library.served, hmode] at hserved ⊢
      exact hserved
  known := h.known

/-- What a worker has still to do: the accesses to what workers share, one after another, and how
it goes on after each. The classes of the library do not change and are no part of this. -/
inductive Work (α : Type) where
  | done (result : α)
  | lookPooled (name : String) (next : Option (Option ClassSignature) → Work α)
  | pool (name : String) (signature : Option ClassSignature) (next : Work α)
  | release (name : String) (next : Work α)
  | lookKnown (name : String) (next : Option Ancestry → Work α)
  | remember (name : String) (ancestry : Ancestry) (next : Work α)

namespace Work

variable {α β : Type}

/-- Makes the next access, if there is one. -/
def step : Work α → Genealogy → Work α × Genealogy
  | done a, g => (done a, g)
  | lookPooled name next, g => (next (g.library.pool.lookup name), g)
  | pool name s next, g =>
    (next, { g with library := { g.library with pool := (name, s) :: g.library.pool } })
  | release name next, g => (next, { g with library := g.library.release name })
  | lookKnown name next, g => (next (g.known.lookup name), g)
  | remember name a next, g => (next, { g with known := (name, a) :: g.known })

/-- All accesses, with nobody in between. -/
def run : Work α → StateM Genealogy α
  | done a, g => (a, g)
  | lookPooled name next, g => (next (g.library.pool.lookup name)).run g
  | pool name s next, g =>
    next.run { g with library := { g.library with pool := (name, s) :: g.library.pool } }
  | release name next, g => next.run { g with library := g.library.release name }
  | lookKnown name next, g => (next (g.known.lookup name)).run g
  | remember name a next, g => next.run { g with known := (name, a) :: g.known }

def bind : Work α → (α → Work β) → Work β
  | done a, f => f a
  | lookPooled name next, f => lookPooled name fun s => (next s).bind f
  | pool name s next, f => pool name s (next.bind f)
  | release name next, f => release name (next.bind f)
  | lookKnown name next, f => lookKnown name fun a => (next a).bind f
  | remember name a next, f => remember name a (next.bind f)

instance : Monad Work where
  pure := done
  bind := bind

theorem run_bind (w : Work α) (f : α → Work β) (g : Genealogy) :
    (w.bind f).run g = (f (w.run g).1).run (w.run g).2 := by
  induction w generalizing g with
  | done a => rfl
  | lookPooled name next ih => exact ih _ g
  | pool name s next ih => exact ih _
  | release name next ih => exact ih _
  | lookKnown name next ih => exact ih _ g
  | remember name a next ih => exact ih _

/-- A state over the classes of a library. -/
structure Over (l : Library) (g : Genealogy) : Prop where
  classes : g.library.classes = l.classes
  mode : g.library.mode = l.mode

theorem Over.run {l : Library} {g : Genealogy} (h : Over l g) (w : Work α) :
    Over l (w.run g).2 := by
  induction w generalizing g with
  | done a => exact h
  | lookPooled name next ih => exact ih _ h
  | pool name s next ih => exact ih ⟨h.classes, h.mode⟩
  | release name next ih => exact ih ⟨h.classes, h.mode⟩
  | lookKnown name next ih => exact ih _ h
  | remember name a next ih => exact ih ⟨h.classes, h.mode⟩

section Search

variable (l : Library)

def signature? (c : ClassDecl) : Work (Option ClassSignature) :=
  match l.mode with
  | .pooled => lookPooled c.name fun
    | some s => done s
    | none => pool c.name c.readableSignature? (done c.readableSignature?)
  | _ => done c.readableSignature?

def argumentsFor (name : String) (t : JType) : Work Substitution :=
  match l.find? name with
  | none => done []
  | some c => (signature? l c).bind fun
    | none => done []
    | some s =>
      done (Genealogy.ofParameters (s.paramNames.zip (t.args.map Genealogy.argumentValue)))

def collect (find : String → Work (Except AncestryError Ancestry)) :
    List JType → Table String Substitution →
      Work (Except AncestryError (Table String Substitution))
  | [], found => done (.ok found)
  | t :: ts, found =>
    match t.className? with
    | none => collect find ts found
    | some name => (argumentsFor l name t).bind fun arguments =>
      let found := found.insertNew name arguments
      match l.find? name with
      | none => collect find ts found
      | some _ => (find name).bind fun
        | .error e => done (.error e)
        | .ok inherited => collect find ts (Genealogy.inherit arguments inherited found)

def climb (find : List String → String → Work (Except AncestryError Ancestry))
    (below : List String) (name : String) : Work (Except AncestryError Ancestry) :=
  if below.contains name then done (.error (.cycle name))
  else
    match l.find? name with
    | none => done (.error (.unknownClass name))
    | some c => (signature? l c).bind fun s =>
      (collect l (find (name :: below)) (Genealogy.supertypes c s)
          [(name, Genealogy.identity s)]).bind fun
        | .error e => done (.error e)
        | .ok ancestors => remember name ⟨name, ancestors⟩ (done (.ok ⟨name, ancestors⟩))

def search : Nat → List String → String → Work (Except AncestryError Ancestry)
  | 0, _, name => done (.error (.cycle name))
  | n + 1, below, name => lookKnown name fun
    | some a => done (.ok a)
    | none => climb l (search n) below name

/-- The search for the ancestry of a class, access by access. -/
def ancestry (name : String) : Work (Except AncestryError Ancestry) := search l (l.size + 1) [] name

def releaseAll : List String → Work Unit
  | [] => done ()
  | name :: names => release name (releaseAll names)

/-- What a worker does that looks for the ancestors of a class and then releases some names. -/
def visit (name : String) (released : List String) : Work (Except AncestryError Ancestry) :=
  (ancestry l name).bind fun r => (releaseAll released).bind fun _ => done r

end Search

section Alone

variable {l : Library} {g : Genealogy}

theorem run_get {w : Work α} {f : Genealogy → StateM Genealogy α} (h : w.run g = f g g) :
    w.run g = (get >>= f) g :=
  h

theorem run_bind_eq {w : Work α} {m : StateM Genealogy α} {k : α → Work β}
    {f : α → StateM Genealogy β} (hg : Over l g) (hw : w.run g = m g)
    (hk : ∀ a {g}, Over l g → (k a).run g = f a g) : (w.bind k).run g = (m >>= f) g := by
  rw [run_bind, hk _ (hg.run w), hw]
  rfl

theorem run_signature? (h : Over l g) (c : ClassDecl) :
    (signature? l c).run g = Genealogy.signature? c g := by
  obtain ⟨⟨classes, pool, mode, distinct⟩, known⟩ := g
  obtain rfl : mode = l.mode := h.mode
  rw [signature?, Genealogy.signature?, Library.signature?]
  dsimp only
  cases l.mode with
  | pooled =>
    rw [run]
    cases pool.lookup c.name <;> rfl
  | plain => rfl
  | unreadable => rfl

theorem run_argumentsFor (h : Over l g) (name : String) (t : JType) :
    (argumentsFor l name t).run g = Genealogy.argumentsFor name t g := by
  rw [argumentsFor, Genealogy.argumentsFor]
  refine run_get ?_
  rw [Library.find?_congr h.classes]
  cases l.find? name with
  | none => rfl
  | some c =>
    refine run_bind_eq h (run_signature? h c) fun s _ _ => ?_
    cases s <;> rfl

theorem run_collect {find : String → Work (Except AncestryError Ancestry)}
    {find' : String → StateM Genealogy (Except AncestryError Ancestry)}
    (hfind : ∀ name {g}, Over l g → (find name).run g = find' name g) (h : Over l g)
    (ts : List JType) (found : Table String Substitution) :
    (collect l find ts found).run g = Genealogy.collect find' ts found g := by
  induction ts generalizing found g with
  | nil => rfl
  | cons t ts ih =>
    rw [collect, Genealogy.collect]
    cases t.className? with
    | none => exact ih h found
    | some name =>
      refine run_bind_eq h (run_argumentsFor h name t) fun arguments g hg => run_get ?_
      rw [Library.find?_congr hg.classes]
      cases l.find? name with
      | none => exact ih hg _
      | some _ =>
        refine run_bind_eq hg (hfind name hg) fun r g hg => ?_
        cases r with
        | error e => rfl
        | ok inherited => exact ih hg _

theorem run_climb {find : List String → String → Work (Except AncestryError Ancestry)}
    {find' : List String → String → StateM Genealogy (Except AncestryError Ancestry)}
    (hfind : ∀ below name {g}, Over l g → (find below name).run g = find' below name g)
    (h : Over l g) (below : List String) (name : String) :
    (climb l find below name).run g = Genealogy.climb find' below name g := by
  rw [climb, Genealogy.climb]
  split
  · rfl
  · refine run_get ?_
    rw [Library.find?_congr h.classes]
    cases l.find? name with
    | none => rfl
    | some c =>
      refine run_bind_eq h (run_signature? h c) fun s g hg => ?_
      refine run_bind_eq hg (run_collect (hfind _) hg _ _) fun r _ _ => ?_
      cases r <;> rfl

theorem run_search (h : Over l g) (n : Nat) (below : List String) (name : String) :
    (search l n below name).run g = Genealogy.search n below name g := by
  induction n generalizing below name g with
  | zero => rfl
  | succ n ih =>
    rw [search, run, Genealogy.search_succ]
    cases hknown : g.known.lookup name with
    | some a => rw [Genealogy.seek_of_known hknown, run]
    | none =>
      rw [Genealogy.seek_of_unknown hknown]
      exact run_climb (fun below name {g} hg => ih hg below name) h below name

theorem run_ancestry (h : Over l g) (name : String) :
    (ancestry l name).run g = Genealogy.ancestry name g := by
  have hsize : g.library.size = l.size := congrArg List.length h.classes
  rw [ancestry, Genealogy.ancestry, hsize]
  exact run_search h _ [] name

theorem run_releaseAll (g : Genealogy) (names : List String) : (releaseAll names).run g =
    ((), { g with library := names.foldl Library.release g.library }) := by
  induction names generalizing g with
  | nil => rfl
  | cons name names ih => exact ih _

/-- A worker that is alone searches as a session does, and releases as a session does. -/
theorem run_visit (h : Over l g) (name : String) (released : List String) :
    (visit l name released).run g =
      let (r, g) := Genealogy.ancestry name g
      (r, { g with library := released.foldl Library.release g.library }) := by
  rw [visit, run_bind, run_ancestry h, run_bind, run_releaseAll]
  rfl

end Alone

open Genealogy (Sound sound_start)

/-- Whatever sound state an access meets, it leaves a sound one; and whatever the accesses met, the
result is as asked for. -/
inductive Yields (l : Library) (Q : α → Prop) : Work α → Prop
  | done {a : α} (holds : Q a) : Yields l Q (done a)
  | step {w : Work α} (sound : ∀ g, Sound l g → Sound l (w.step g).2)
      (next : ∀ g, Sound l g → Yields l Q (w.step g).1) : Yields l Q w

namespace Yields

variable {l : Library} {Q P : α → Prop} {w : Work α}

theorem result {a : α} (h : Yields l Q (.done a)) : Q a := by
  generalize hw : Work.done a = w at h
  induction h with
  | done holds =>
    cases hw
    exact holds
  | step _ _ ih =>
    subst hw
    exact ih _ (sound_start l) rfl

theorem mono (h : Yields l P w) (hpq : ∀ a, P a → Q a) : Yields l Q w := by
  induction h with
  | done holds => exact .done (hpq _ holds)
  | step sound _ ih => exact .step sound ih

theorem bind {R : β → Prop} {k : α → Work β} (h : Yields l P w)
    (hk : ∀ a, P a → Yields l R (k a)) : Yields l R (w.bind k) := by
  induction h with
  | done holds => exact hk _ holds
  | @step w sound _ ih =>
    cases w with
    | done a => exact ih _ (sound_start l)
    | lookPooled name next => exact .step (fun g hg => sound g hg) fun g hg => ih g hg
    | pool name s next => exact .step (fun g hg => sound g hg) fun g hg => ih g hg
    | release name next => exact .step (fun g hg => sound g hg) fun g hg => ih g hg
    | lookKnown name next => exact .step (fun g hg => sound g hg) fun g hg => ih g hg
    | remember name a next => exact .step (fun g hg => sound g hg) fun g hg => ih g hg

/-- What one access keeps. -/
theorem sound_step (h : Yields l Q w) {g : Genealogy} (hg : Sound l g) : Sound l (w.step g).2 := by
  cases h with
  | done holds => exact hg
  | step sound _ => exact sound g hg

theorem next_step (h : Yields l Q w) {g : Genealogy} (hg : Sound l g) :
    Yields l Q (w.step g).1 := by
  cases h with
  | done holds => exact .done holds
  | step _ next => exact next g hg

end Yields

/-- The result is the one that an action gives from every sound state. -/
def Mimics (l : Library) (w : Work α) (m : StateM Genealogy α) : Prop :=
  w.Yields l fun a => ∀ g, Sound l g → (m g).1 = a ∧ Sound l (m g).2

namespace Mimics

variable {l : Library} {w : Work α} {m m' : StateM Genealogy α}

theorem congr (h : w.Mimics l m) (hm : ∀ g, Sound l g → m' g = m g) : w.Mimics l m' :=
  Yields.mono h fun _ ha g hg => hm g hg ▸ ha g hg

theorem pure (a : α) : (Work.done a).Mimics l (Pure.pure a) := .done fun _ hg => ⟨rfl, hg⟩

theorem bind {k : α → Work β} {f : α → StateM Genealogy β} (h : w.Mimics l m)
    (hk : ∀ a, (∀ g, Sound l g → (m g).1 = a) → (k a).Mimics l (f a)) :
    (w.bind k).Mimics l (m >>= f) := by
  refine Yields.bind h fun a ha => ?_
  refine Yields.mono (hk a fun g hg => (ha g hg).1) fun b hb g hg => ?_
  obtain ⟨rfl, hsound⟩ := ha g hg
  exact hb _ hsound

/-- For an action that looks only at what all sound states have in common. -/
theorem get {f : Genealogy → StateM Genealogy α}
    (hf : ∀ g, Sound l g → f g = f { library := l }) (h : w.Mimics l (f { library := l })) :
    w.Mimics l (MonadState.get >>= f) :=
  h.congr fun g hg => congrFun (hf g hg) g

end Mimics

section Search

variable {l : Library}

/-- A signature that is found is the one that is served, and only that one is pooled. -/
theorem mimics_signature? {c : ClassDecl} (hc : c ∈ l.classes) :
    (signature? l c).Mimics l (Genealogy.signature? c) := by
  suffices h : (signature? l c).Yields l (· = l.served c) from
    Yields.mono h fun s hs g hg => hs ▸ hg.signature hc
  rw [signature?]
  cases hmode : l.mode with
  | pooled =>
    refine .step (fun g hg => hg) fun g hg => ?_
    have hserved := hg.served c hc
    rw [Library.served, hg.mode, hmode] at hserved
    dsimp only [step] at hserved ⊢
    cases hlookup : g.library.pool.lookup c.name with
    | some s =>
      rw [hlookup] at hserved
      exact .done hserved
    | none =>
      rw [hlookup] at hserved
      exact .step (fun g hg => hg.pool hc hserved) fun _ _ => .done hserved
  | plain =>
    refine .done ?_
    rw [Library.served, hmode]
  | unreadable =>
    refine .done ?_
    rw [Library.served, hmode]

theorem mimics_argumentsFor (name : String) (t : JType) :
    (argumentsFor l name t).Mimics l (Genealogy.argumentsFor name t) := by
  rw [argumentsFor, Genealogy.argumentsFor]
  refine .get (fun g hg => by simp only [hg.find?]) ?_
  cases hc : l.find? name with
  | none => exact .pure []
  | some c =>
    refine (mimics_signature? (List.mem_of_find?_eq_some hc)).bind fun s _ => ?_
    cases s <;> exact .pure _

theorem mimics_collect {c : String} {find : String → Work (Except AncestryError Ancestry)}
    {find' : String → StateM Genealogy (Except AncestryError Ancestry)}
    (hfind : ∀ {d}, l.Extends c d → (find d).Mimics l (find' d)) {ts : List JType}
    (hts : ∀ t ∈ ts, t ∈ l.directSupertypes c) (found : Table String Substitution) :
    (collect l find ts found).Mimics l (Genealogy.collect find' ts found) := by
  induction ts generalizing found with
  | nil => exact .pure _
  | cons t ts ih =>
    obtain ⟨ht, hts⟩ := List.forall_mem_cons.mp hts
    rw [collect, Genealogy.collect]
    cases hd : t.className? with
    | none => exact ih hts found
    | some d =>
      obtain ⟨i, hi⟩ := List.mem_iff_getElem?.mp ht
      refine (mimics_argumentsFor d t).bind fun arguments _ => ?_
      refine .get (fun g hg => by simp only [hg.find?]) ?_
      cases l.find? d with
      | none => exact ih hts _
      | some _ =>
        refine (hfind ⟨i, t, hi, hd⟩).bind fun r _ => ?_
        cases r with
        | error e => exact .pure _
        | ok inherited => exact ih hts _

theorem mimics_climb {find : List String → String → Work (Except AncestryError Ancestry)}
    {find' : List String → String → StateM Genealogy (Except AncestryError Ancestry)}
    {below : List String} {name : String} (hchain : l.Chain below name)
    (hfind : ∀ {d}, l.Chain (name :: below) d →
      (find (name :: below) d).Mimics l (find' (name :: below) d))
    (hanswers : ∀ {d g}, l.Chain (name :: below) d → Sound l g →
      Ends (find' (name :: below) d) g fun r g => l.Answers d r ∧ Sound l g) :
    (climb l find below name).Mimics l (Genealogy.climb find' below name) := by
  rw [climb, Genealogy.climb]
  split
  · exact .pure _
  · next hmem =>
    have hnew : name ∉ below := fun hm => hmem (List.contains_iff_mem.mpr hm)
    refine .get (fun g hg => by simp only [hg.find?]) ?_
    cases hc : l.find? name with
    | none => exact .pure _
    | some c =>
      have hlisted : l.find? name ≠ none := by simp [hc]
      have hup {d} (hstep : l.Extends name d) := hchain.up hnew hlisted hstep
      have hmem := List.mem_of_find?_eq_some hc
      refine (mimics_signature? hmem).bind fun s hs => ?_
      obtain rfl : l.served c = s :=
        ((sound_start l).signature hmem).1.symm.trans (hs _ (sound_start l))
      have hsupertypes : l.directSupertypes name = [] ++ Genealogy.supertypes c (l.served c) :=
        Library.directSupertypes_of_find? hc
      have hts : ∀ t ∈ Genealogy.supertypes c (l.served c), t ∈ l.directSupertypes name :=
        fun t ht => hsupertypes ▸ ht
      refine (mimics_collect (fun hstep => hfind (hup hstep)) hts _).bind fun r hr => ?_
      cases r with
      | error e => exact .pure _
      | ok ancestors =>
        have hstart : l.Gathered name 0 [(name, Genealogy.identity (l.served c))] := by
          have hsignature : l.signatureOf name = l.served c := by
            rw [Library.signatureOf, hc, Option.bind_some]
          exact hsignature ▸ .start l name
        have hcollected := ((sound_start l).collect (fun hstep hg => hanswers (hup hstep) hg)
          hsupertypes hstart).1
        rw [hr _ (sound_start l)] at hcollected
        obtain ⟨traced⟩ := hcollected
        have hanswer := Library.Answers.found hlisted traced
        exact .step (fun g hg => hg.remember hanswer) fun _ _ =>
          .done fun g hg => ⟨rfl, hg.remember hanswer⟩

/-- Whatever the others find meanwhile, a search finds what it finds alone. -/
theorem mimics_search {n : Nat} {below : List String} {name : String} (hchain : l.Chain below name)
    (hn : l.size < n + below.length) :
    (search l n below name).Mimics l (Genealogy.search n below name) := by
  induction n generalizing below name with
  | zero =>
    have := hchain.length_le
    omega
  | succ n ih =>
    have hanswers {m : Nat} {below : List String} {d : String} {g : Genealogy}
        (hchain : l.Chain below d) (hm : l.size < m + below.length) (hg : Sound l g) :
        Ends (Genealogy.search m below d) g fun r g => l.Answers d r ∧ Sound l g := by
      rw [← Genealogy.searchOr_cycle]
      exact hg.searchOr _ hchain hm
    have hup {d} (_ : l.Chain (name :: below) d) : l.size < n + (name :: below).length := by
      rw [List.length_cons]
      omega
    rw [search]
    refine .step (fun g hg => hg) fun g hg => ?_
    rw [step]
    cases hknown : g.known.lookup name with
    | some a =>
      refine .done fun g' hg' => ?_
      obtain ⟨hanswer, hsound⟩ := hanswers hchain hn hg'
      exact ⟨(hg.known hknown).eq_of_ok hanswer, hsound⟩
    | none =>
      have hclimb := mimics_climb hchain (fun h => ih h (hup h)) fun h hg => hanswers h (hup h) hg
      refine Yields.mono hclimb fun r hr g' hg' => ?_
      -- All sound states answer alike, and where nothing is known the search climbs.
      have hsame := (Genealogy.keeps_search hchain hn g' _ ⟨hg', sound_start l⟩).1.1
      have hempty : Genealogy.search (n + 1) below name { library := l } =
          Genealogy.climb (Genealogy.search n) below name { library := l } :=
        Genealogy.seek_of_unknown rfl
      rw [hsame, hempty]
      exact ⟨(hr _ (sound_start l)).1, (hanswers hchain hn hg').2⟩

theorem mimics_ancestry (l : Library) (name : String) :
    (ancestry l name).Mimics l (Genealogy.ancestry name) := by
  refine (mimics_search (.nil l name) (Nat.lt_succ_self _)).congr fun g hg => ?_
  rw [Genealogy.ancestry, hg.size]

theorem yields_visit (hl : l.Honest) (name : String) (released : List String) :
    (visit l name released).Yields l (· = (Genealogy.ancestry name { library := l }).1) := by
  refine Yields.bind (mimics_ancestry l name) fun r hr => ?_
  have hreleased : (releaseAll released).Yields l fun _ => True := by
    induction released with
    | nil => exact .done trivial
    | cons n ns ih => exact .step (fun g hg => hg.release hl n) fun _ _ => ih
  exact hreleased.bind fun _ _ => .done (hr _ (sound_start l)).1.symm

end Search

/-- One of several workers makes its next access. Each has a name. -/
inductive Turn {ι : Type} : List (ι × Work α) × Genealogy → List (ι × Work α) × Genealogy → Prop
  | mk (before : List (ι × Work α)) (i : ι) (w : Work α) (after : List (ι × Work α))
      (g : Genealogy) :
      Turn (before ++ (i, w) :: after, g) (before ++ (i, (w.step g).1) :: after, (w.step g).2)

section Turns

variable {l : Library} {ι : Type} {Q : ι → α → Prop} {s s' : List (ι × Work α) × Genealogy}

theorem Turn.yields (h : Turn s s') (hs : ∀ e ∈ s.1, e.2.Yields l (Q e.1)) (hg : Sound l s.2) :
    (∀ e ∈ s'.1, e.2.Yields l (Q e.1)) ∧ Sound l s'.2 := by
  obtain ⟨before, i, w, after, g⟩ := h
  have hw : w.Yields l (Q i) := hs (i, w) (by simp)
  refine ⟨fun e he => ?_, hw.sound_step hg⟩
  simp only [List.mem_append, List.mem_cons] at he
  rcases he with he | rfl | he
  · exact hs e (by simp [he])
  · exact hw.next_step hg
  · exact hs e (by simp [he])

theorem yields_after_turns (h : ReflTransGen Turn s s') (hs : ∀ e ∈ s.1, e.2.Yields l (Q e.1))
    (hg : Sound l s.2) : (∀ e ∈ s'.1, e.2.Yields l (Q e.1)) ∧ Sound l s'.2 := by
  induction h with
  | refl => exact ⟨hs, hg⟩
  | tail _ hturn ih => exact hturn.yields ih.1 ih.2

end Turns

/-- Searches for ancestors at the same time, with their accesses in any order and names released
meanwhile: each one that is done has found what it would have found alone, or failed at the same
class. -/
theorem answers_of_turns {l : Library} (hl : l.Honest) (visits : List (String × List String))
    {workers : List (String × Work (Except AncestryError Ancestry))} {g : Genealogy}
    (h : ReflTransGen Turn (visits.map fun v => (v.1, visit l v.1 v.2), { library := l })
      (workers, g)) :
    Sound l g ∧ ∀ name r, (name, done r) ∈ workers →
      r = (Genealogy.ancestry name { library := l }).1 := by
  have hstart : ∀ e ∈ visits.map fun v => (v.1, visit l v.1 v.2),
      e.2.Yields l (· = (Genealogy.ancestry e.1 { library := l }).1) := by
    intro e he
    obtain ⟨v, _, rfl⟩ := List.mem_map.mp he
    exact yields_visit hl v.1 v.2
  obtain ⟨hworkers, hg⟩ := yields_after_turns
    (Q := fun name r => r = (Genealogy.ancestry name { library := l }).1) h hstart (sound_start l)
  exact ⟨hg, fun name r hr => (hworkers _ hr).result⟩

/-- A run of one worker amid others: before each of its accesses they may have made any change that
keeps the state sound. -/
inductive Runs (l : Library) : Work α → Genealogy → α → Genealogy → Prop
  | done {a : α} {g : Genealogy} : Runs l (done a) g a g
  | step {w : Work α} {g g' g'' : Genealogy} {a : α} (others : Sound l g')
      (rest : Runs l (w.step g').1 (w.step g').2 a g'') : Runs l w g a g''

theorem Yields.runs {l : Library} {Q : α → Prop} {w : Work α} {g g' : Genealogy} {a : α}
    (h : w.Yields l Q) (hg : Sound l g) (hrun : Runs l w g a g') : Q a ∧ Sound l g' := by
  induction hrun with
  | done => exact ⟨h.result, hg⟩
  | step others _ ih => exact ih (h.next_step others) (h.sound_step others)

end Work

/-- A run of an action of the writer amid others. It goes part by part; between its parts, and
between the accesses of a search, the others may make any change that keeps the state sound. -/
inductive Amid (l : Library) {σ : Type} : {α : Type} → SketchM σ α → Bench σ → α → Bench σ → Prop
  | part {α : Type} {m : SketchM σ α} {b : Bench σ} (keeps : Keeps (Bench.Alike l) Eq m m) :
      Amid l m b (m b).1 (m b).2
  | search {α : Type} {w : Work α} {m : StateM Genealogy α} {b : Bench σ} {a : α} {g : Genealogy}
      (mimics : w.Mimics l m) (runs : w.Runs l b.shop.genealogy a g) :
      Amid l (SketchM.inGenealogy m) b a { b with shop := { b.shop with genealogy := g } }
  | others {α : Type} {m : SketchM σ α} {b b' : Bench σ} {a : α} {g : Genealogy} (sound : g.Sound l)
      (rest : Amid l m { b with shop := { b.shop with genealogy := g } } a b') : Amid l m b a b'
  | bind {α β : Type} {m : SketchM σ α} {f : α → SketchM σ β} {b b' b'' : Bench σ} {x : α} {y : β}
      (first : Amid l m b x b') (rest : Amid l (f x) b' y b'') : Amid l (m >>= f) b y b''

theorem Amid.alike {l : Library} {σ α : Type} {m : SketchM σ α} {b b' c : Bench σ} {a : α}
    (h : Amid l m b a b') (hb : Bench.Alike l b c) : (m c).1 = a ∧ Bench.Alike l b' (m c).2 := by
  induction h generalizing c with
  | part keeps =>
    obtain ⟨heq, hafter⟩ := keeps _ _ hb
    exact ⟨heq.symm, hafter⟩
  | search mimics runs =>
    obtain ⟨hresult, hsound⟩ := mimics.runs hb.left runs
    obtain ⟨heq, hsound'⟩ := hresult _ hb.right
    exact ⟨heq, hb.draft, hsound, hsound'⟩
  | others sound _ ih => exact ih ⟨hb.draft, sound, hb.right⟩
  | bind _ _ ihfirst ihrest =>
    obtain ⟨rfl, hmiddle⟩ := ihfirst hb
    exact ihrest hmiddle

section Files

variable {σ : Type} {l : Library} {k : Kit σ} {t : ClassTree}

/-- A draft of a tree's file that comes of a run amid others, from a state that they left. -/
def ClassTree.DraftedAmid (t : ClassTree) (l : Library) (k : Kit σ) (d : Draft) : Prop :=
  if t.root.decl.isPackageInfo then
    d = (Draft.ofRoot t.root.name k.options.layout).writePackage t.root.decl
  else ∃ shop b, shop.genealogy.Sound l ∧ b.draft = d ∧
    Amid l (TypeSketch.sketch k 0 (t.sprouted k.renderer).tree)
      ⟨shop, .ofRoot t.root.name k.options.layout⟩ () b

theorem ClassTree.DraftedAmid.eq_fileDraft {d : Draft} (h : t.DraftedAmid l k d)
    {shop : Workshop σ} (hshop : shop.genealogy.Sound l) : d = (shop.fileDraft k t).1 := by
  rw [DraftedAmid] at h
  rw [Workshop.fileDraft]
  by_cases hinfo : t.root.decl.isPackageInfo = true
  · rw [if_pos hinfo] at h
    rw [if_pos hinfo, h]
  · rw [if_neg hinfo] at h
    obtain ⟨shop', b, hshop', rfl, hrun⟩ := h
    rw [if_neg hinfo, Workshop.draftClass_apply]
    have hstart : Bench.Alike l ⟨shop', .ofRoot t.root.name k.options.layout⟩
        ⟨shop.prepare (t.sprouted k.renderer).preparedClasses,
          .ofRoot t.root.name k.options.layout⟩ :=
      ⟨rfl, hshop', hshop⟩
    exact (hrun.alike hstart).2.draft

/-- A file that is written alone is a run of one part. -/
theorem ClassTree.draftedAmid_alone {f : PureBody} (hk : k.renderer.body = f.run)
    (ht : t.Within l) {shop : Workshop σ} (hshop : shop.genealogy.Sound l) :
    t.DraftedAmid l k (shop.fileDraft k t).1 := by
  rw [DraftedAmid, Workshop.fileDraft]
  by_cases hinfo : t.root.decl.isPackageInfo = true
  · rw [if_pos hinfo, if_pos hinfo]
  · rw [if_neg hinfo, if_neg hinfo, Workshop.draftClass_apply]
    have hrun := Amid.part (Workshop.keeps_sketch hk ht)
      (b := ⟨shop.prepare (t.sprouted k.renderer).preparedClasses,
        .ofRoot t.root.name k.options.layout⟩)
    exact ⟨shop.prepare _, _, hshop, rfl, hrun⟩

/-- The file that is put together from a draft of a tree. -/
def ClassTree.fileOf (t : ClassTree) (k : Kit σ) (d : Draft) : SourceFile :=
  ⟨t.root.name, (d.finish k.options t.root.decl).1, (d.finish k.options t.root.decl).2.tables,
    ((t.sprouted k.renderer).markFailed d.failed).hasFailure⟩

/-- All files may be written at the same time: whatever the others do to what is shared while a file
is drafted, it is the file that a session writes first. -/
theorem Session.files_amid_others (k : Kit σ) (f : PureBody) (l : Library) (memory : σ)
    (policy : Renaming) :
    let s := start (k.withBody f.run) l memory policy
    ∀ t ∈ s.forest.trees, (∃ d, t.DraftedAmid l s.kit d) ∧
      ∀ d, t.DraftedAmid l s.kit d → (s.write t.root.name).map (·.1) = .ok (t.fileOf s.kit d) := by
  intro s t ht
  have hs : s.Sourced .any l := sourced_start (Library.worded_any _) memory policy.worded_any
  have hsound : s.shop.genealogy.Sound l := Genealogy.sound_start l
  refine ⟨⟨_, ClassTree.draftedAmid_alone rfl (within_of_sourced hs ht) hsound⟩, fun d hd => ?_⟩
  have hfile : (s.shop.writeFile s.kit t).1 = t.fileOf s.kit (s.shop.fileDraft s.kit t).1 := by
    rw [Workshop.writeFile_apply, ClassTree.fileOf]
  rw [write_of_mem_names hs.distinct ht t.root_name_mem, hd.eq_fileDraft hsound, ← hfile,
    Except.map]

end Files

end ClassSketch
