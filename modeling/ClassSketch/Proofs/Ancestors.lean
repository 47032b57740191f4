import ClassSketch.Proofs.Pooling
import ClassSketch.Proofs.Routes
import Mathlib.Data.List.Nodup

/-! What a search for ancestors answers. It fails if the class is missing or if a class above it is
above itself; otherwise its table has the classes on the routes from the class. What was kept from
earlier searches changes nothing. -/

namespace ClassSketch

open Relation

/-- The answer of an action and the state it leaves meet a condition. -/
def Ends {ς α : Type} (m : StateM ς α) (g : ς) (Q : α → ς → Prop) : Prop := Q (m g).1 (m g).2

namespace Ends

variable {ς α β : Type} {m : StateM ς α} {f : α → StateM ς β} {g : ς}

theorem pure {Q : α → ς → Prop} {x : α} (h : Q x g) : Ends (Pure.pure x) g Q := h

theorem get {f : ς → StateM ς β} {Q : β → ς → Prop} (h : Ends (f g) g Q) :
    Ends (MonadState.get >>= f) g Q :=
  h

theorem bind {P : α → ς → Prop} {Q : β → ς → Prop} (hm : Ends m g P)
    (hf : ∀ x {g}, P x g → Ends (f x) g Q) : Ends (m >>= f) g Q :=
  hf _ hm

theorem get_congr {f f' : ς → StateM ς β} (h : f g g = f' g g) :
    (MonadState.get >>= f) g = (MonadState.get >>= f') g :=
  h

theorem bind_congr {P : α → ς → Prop} {m' : StateM ς α} {f' : α → StateM ς β} (hm : Ends m g P)
    (heq : m g = m' g) (hf : ∀ x {g}, P x g → f x g = f' x g) : (m >>= f) g = (m' >>= f') g := by
  have hrun : (m' >>= f') g = f' (m g).1 (m g).2 := by rw [heq]; rfl
  rw [hrun]
  exact hf _ hm

end Ends

namespace Library

theorem signature?_fst (c : ClassDecl) (l : Library) :
    (Library.signature? c l).1 = l.served c := by
  rw [Library.signature?, served]
  cases l.mode with
  | pooled => cases l.pool.lookup c.name <;> rfl
  | plain => rfl
  | unreadable => rfl

theorem classes_signature? (c : ClassDecl) (l : Library) :
    (Library.signature? c l).2.classes = l.classes := by
  rw [Library.signature?]
  cases l.mode with
  | pooled => cases l.pool.lookup c.name <;> rfl
  | plain => rfl
  | unreadable => rfl

theorem mode_signature? (c : ClassDecl) (l : Library) :
    (Library.signature? c l).2.mode = l.mode := by
  rw [Library.signature?]
  cases hmode : l.mode with
  | pooled =>
    cases l.pool.lookup c.name with
    | some s => exact hmode
    | none => rfl
  | plain => exact hmode
  | unreadable => exact hmode

theorem eq_of_name {l : Library} {c d : ClassDecl} (hc : c ∈ l.classes) (hd : d ∈ l.classes)
    (h : c.name = d.name) : c = d :=
  List.inj_on_of_nodup_map l.distinct hc hd h

theorem served_signature? {l : Library} {c d : ClassDecl} (hc : c ∈ l.classes)
    (hd : d ∈ l.classes) : (Library.signature? c l).2.served d = l.served d := by
  rw [Library.signature?]
  cases hmode : l.mode with
  | pooled =>
    cases hl : l.pool.lookup c.name with
    | some s => rfl
    | none =>
      simp only [served, hmode, List.lookup_cons]
      by_cases hname : d.name = c.name
      · obtain rfl := eq_of_name hd hc hname
        simp [hl]
      · rw [beq_false_of_ne hname]
  | plain => rfl
  | unreadable => rfl

theorem find?_congr {l r : Library} (h : l.classes = r.classes) (name : String) :
    l.find? name = r.find? name := by
  rw [find?, find?, h]

/-- A class from which a class is reached that is above itself. -/
def Looping (l : Library) (c : String) : Prop :=
  ∃ d, ReflTransGen l.Extends c d ∧ TransGen l.Extends d d

variable {l : Library} {c d : String}

theorem Looping.below (h : l.Looping d) (hstep : l.Extends c d) : l.Looping c := by
  obtain ⟨e, hreach, hcycle⟩ := h
  exact ⟨e, .head hstep hreach, hcycle⟩

theorem not_looping_of_acc (h : Acc (Function.swap l.Extends) c) : ¬ l.Looping c := by
  rintro ⟨d, hreach, hcycle⟩
  have hd : Acc (Function.swap l.Extends) d := by
    clear hcycle
    induction hreach with
    | refl => exact h
    | tail _ hstep ih => exact ih.inv hstep
  exact not_transGen_of_acc hd hcycle

theorem directSupertypes_of_find? {c : ClassDecl} {name : String} (h : l.find? name = some c) :
    l.directSupertypes name = Genealogy.supertypes c (l.served c) := by
  rw [directSupertypes, h]
  cases hs : l.served c <;> simp only [hs, Genealogy.supertypes]

/-- The answers to a search for the ancestors of a class. -/
inductive Answers (l : Library) (name : String) : Except AncestryError Ancestry → Prop
  | found {table : Table String Substitution} (listed : l.find? name ≠ none)
      (traced : l.Traced name table) : Answers l name (.ok ⟨name, table⟩)
  | unknown (missing : l.find? name = none) : Answers l name (.error (.unknownClass name))
  | looping (through : String) (listed : l.find? name ≠ none) (looping : l.Looping name) :
      Answers l name (.error (.cycle through))

namespace Answers

variable {name : String} {r : Except AncestryError Ancestry}

theorem unknown_iff (h : l.Answers name r) (other : String) :
    r = .error (.unknownClass other) ↔ l.find? name = none ∧ other = name := by
  cases h with
  | found listed => exact iff_of_false nofun fun h => listed h.1
  | unknown missing =>
    refine ⟨fun h => ?_, fun h => h.2 ▸ rfl⟩
    injection h with h
    injection h with h
    exact ⟨missing, h.symm⟩
  | looping through listed => exact iff_of_false nofun fun h => listed h.1

theorem cycle_iff (h : l.Answers name r) :
    (∃ through, r = .error (.cycle through)) ↔ l.find? name ≠ none ∧ l.Looping name := by
  cases h with
  | found listed traced =>
    exact iff_of_false nofun fun h => not_looping_of_acc traced.covers.grounded h.2
  | unknown missing => exact iff_of_false nofun fun h => h.1 missing
  | looping through listed hloop => exact iff_of_true ⟨through, rfl⟩ ⟨listed, hloop⟩

theorem ok_iff (h : l.Answers name r) :
    (∃ a, r = .ok a) ↔ l.find? name ≠ none ∧ ¬ l.Looping name := by
  cases h with
  | found listed traced =>
    exact iff_of_true ⟨_, rfl⟩ ⟨listed, not_looping_of_acc traced.covers.grounded⟩
  | unknown missing => exact iff_of_false nofun fun h => h.1 missing
  | looping through listed hloop => exact iff_of_false nofun fun h => h.2 hloop

theorem of_ok {a : Ancestry} (h : l.Answers name (.ok a)) :
    a.className = name ∧ l.Traced name a.ancestors := by
  cases h with
  | found _ traced => exact ⟨rfl, traced⟩

end Answers

/-- The classes that a search came through: all differ, and each leads to the next one. -/
structure Chain (l : Library) (below : List String) (name : String) : Prop where
  nodup : below.Nodup
  listed : ∀ b ∈ below, l.find? b ≠ none
  leads : ∀ b ∈ below, TransGen l.Extends b name

namespace Chain

variable {below : List String} {name : String}

theorem nil (l : Library) (name : String) : l.Chain [] name := ⟨.nil, nofun, nofun⟩

theorem up (h : l.Chain below name) (hnew : name ∉ below) (hlisted : l.find? name ≠ none)
    (hstep : l.Extends name d) : l.Chain (name :: below) d where
  nodup := List.nodup_cons.mpr ⟨hnew, h.nodup⟩
  listed := List.forall_mem_cons.mpr ⟨hlisted, h.listed⟩
  leads := List.forall_mem_cons.mpr ⟨.single hstep, fun b hb => .tail (h.leads b hb) hstep⟩

theorem length_le (h : l.Chain below name) : below.length ≤ l.size := by
  have hsubset : below ⊆ l.classes.map (·.name) := by
    intro b hb
    obtain ⟨c, hc⟩ := Option.ne_none_iff_exists'.mp (h.listed b hb)
    have hname : c.name = b := by simpa using List.find?_some hc
    exact List.mem_map.mpr ⟨c, List.mem_of_find?_eq_some hc, hname⟩
  simpa [size] using h.nodup.length_le_of_subset hsubset

end Chain

end Library

namespace Genealogy

/-- The library is the given one, up to what is pooled. -/
structure Serves (l : Library) (g : Genealogy) : Prop where
  classes : g.library.classes = l.classes
  mode : g.library.mode = l.mode
  served : ∀ c ∈ l.classes, g.library.served c = l.served c

/-- What is known are answers that a search would find. -/
structure Sound (l : Library) (g : Genealogy) : Prop extends Serves l g where
  known : ∀ {name a}, g.known.lookup name = some a → l.Answers name (.ok a)

theorem sound_start (l : Library) : Sound l { library := l } :=
  ⟨⟨rfl, rfl, fun _ _ => rfl⟩, nofun⟩

theorem ascending_ofParameters (pairs : List (String × JType)) :
    Table.Ascending (ofParameters pairs) :=
  Table.ascending_ofEntries pairs

/-- Of two parameters with the same name the later one counts. -/
theorem find?_ofParameters (pairs : List (String × JType)) (v : String) :
    Table.find? (ofParameters pairs) v = pairs.reverse.lookup v :=
  Table.find?_ofEntries pairs v

theorem argumentValue_eq (a : TypeArg) : argumentValue a = a.standsFor := by
  cases a <;> rfl

section

variable {l : Library} {g : Genealogy}

theorem Serves.find? (h : Serves l g) (name : String) : g.library.find? name = l.find? name :=
  Library.find?_congr h.classes name

theorem Sound.signature (h : Sound l g) {c : ClassDecl} (hc : c ∈ l.classes) :
    Ends (signature? c) g fun s g => s = l.served c ∧ Sound l g := by
  refine ⟨(Library.signature?_fst c g.library).trans (h.served c hc), ⟨?_, ?_, fun d hd => ?_⟩,
    h.known⟩
  · exact (Library.classes_signature? c g.library).trans h.classes
  · exact (Library.mode_signature? c g.library).trans h.mode
  · rw [← h.classes] at hc hd
    exact (Library.served_signature? hc hd).trans (h.served d (h.classes ▸ hd))

theorem Sound.argumentsFor (h : Sound l g) (d : String) (t : JType) :
    Ends (argumentsFor d t) g fun s g =>
      s = ofParameters ((l.parametersOf d).zip (t.args.map TypeArg.standsFor)) ∧ Sound l g := by
  have hvalues : t.args.map argumentValue = t.args.map TypeArg.standsFor :=
    List.map_congr_left fun a _ => argumentValue_eq a
  rw [Library.parametersOf, Library.signatureOf, ← h.find? d]
  refine .get ?_
  cases hc : g.library.find? d with
  | none => exact .pure ⟨rfl, h⟩
  | some c =>
    have hmem : c ∈ l.classes := h.classes ▸ List.mem_of_find?_eq_some hc
    refine .bind (h.signature hmem) ?_
    rintro s g ⟨hs, hg⟩
    rw [Option.bind_some, ← hs, ← hvalues]
    cases s with
    | none => exact .pure ⟨rfl, hg⟩
    | some s => exact .pure ⟨rfl, hg⟩

/-- What going through the supertypes of a class can give. -/
inductive Collected (l : Library) (c : String) :
    Except AncestryError (Table String Substitution) → Prop
  | done {table : Table String Substitution} (traced : l.Traced c table) : Collected l c (.ok table)
  | looping (through : String) (looping : l.Looping c) : Collected l c (.error (.cycle through))

theorem Sound.collect {c : String}
    {find : String → StateM Genealogy (Except AncestryError Ancestry)}
    (hfind : ∀ {d g}, l.Extends c d → Sound l g →
      Ends (find d) g fun r g => l.Answers d r ∧ Sound l g)
    {before ts : List JType} (hts : l.directSupertypes c = before ++ ts)
    {found : Table String Substitution} (hfound : l.Gathered c before.length found)
    (h : Sound l g) :
    Ends (collect find ts found) g fun r g => Collected l c r ∧ Sound l g := by
  induction ts generalizing before found g with
  | nil =>
    have htraced : l.Traced c found := by
      rw [Library.Traced, hts, List.append_nil]
      exact hfound
    exact .pure ⟨.done htraced, h⟩
  | cons t ts ih =>
    have hat : (l.directSupertypes c)[before.length]? = some t := by simp [hts]
    have hts' : l.directSupertypes c = (before ++ [t]) ++ ts := by simp [hts]
    have hlength : (before ++ [t]).length = before.length + 1 := List.length_append
    rw [Genealogy.collect]
    cases ht : t.className? with
    | none => exact ih hts' (hlength ▸ hfound.skip hat ht) h
    | some d =>
      have entry : l.Entry c before.length t d := ⟨hat, ht⟩
      refine .bind (h.argumentsFor d t) ?_
      rintro arguments g ⟨harguments, hg⟩
      refine .get ?_
      have hascending : Table.Ascending arguments := harguments ▸ ascending_ofParameters _
      have hlookup : ∀ v, Table.find? arguments v = (l.supplied t).lookup v := by
        intro v
        rw [harguments, find?_ofParameters, Library.supplied, ht]
      rw [hg.find?]
      cases hd : l.find? d with
      | none =>
        exact ih hts' (hlength ▸ hfound.step entry (Library.covers_nil hd) hascending hlookup) hg
      | some _ =>
        refine .bind (hfind ⟨_, _, entry⟩ hg) ?_
        rintro r g ⟨hr, hg⟩
        cases hr with
        | found _ traced =>
          exact ih hts' (hlength ▸ hfound.step entry traced.covers hascending hlookup) hg
        | unknown missing => cases hd.symm.trans missing
        | looping through _ hloop => exact .pure ⟨.looping through (hloop.below ⟨_, _, entry⟩), hg⟩

theorem Sound.remember (h : Sound l g) {name : String} {a : Ancestry}
    (ha : l.Answers name (.ok a)) : Sound l { g with known := (name, a) :: g.known } where
  classes := h.classes
  mode := h.mode
  served := h.served
  known {n b} hb := by
    have hlookup := Table.find?_cons name a g.known n
    rw [Table.find?, hb] at hlookup
    split at hlookup
    · next heq =>
      obtain rfl := Option.some.inj hlookup
      exact heq ▸ ha
    · exact h.known hlookup.symm

end

/-- One step of a search; `find` goes on above the class. -/
def seek (find : List String → String → StateM Genealogy (Except AncestryError Ancestry))
    (below : List String) (name : String) : StateM Genealogy (Except AncestryError Ancestry) := do
  match (← get).known.lookup name with
  | some a => return .ok a
  | none =>
    if below.contains name then return .error (.cycle name)
    match (← get).library.find? name with
    | none => return .error (.unknownClass name)
    | some c =>
      let s ← signature? c
      match ← collect (find (name :: below)) (supertypes c s) [(name, identity s)] with
      | .error e => return .error e
      | .ok ancestors =>
        let a : Ancestry := ⟨name, ancestors⟩
        modify fun g => { g with known := (name, a) :: g.known }
        return .ok a

theorem search_succ (n : Nat) (below : List String) (name : String) :
    search (n + 1) below name = seek (search n) below name := rfl

/-- The search with another answer for a class at which its steps run out. -/
def searchOr (atLimit : String → Except AncestryError Ancestry) :
    Nat → List String → String → StateM Genealogy (Except AncestryError Ancestry)
  | 0, _, name => return atLimit name
  | n + 1, below, name => seek (searchOr atLimit n) below name

theorem searchOr_cycle (n : Nat) : searchOr (fun name => .error (.cycle name)) n = search n := by
  induction n with
  | zero => rfl
  | succ n ih =>
    funext below name
    rw [searchOr, ih, search_succ]

section

variable {l : Library} {g : Genealogy} {below : List String} {name : String}
  {find : List String → String → StateM Genealogy (Except AncestryError Ancestry)}

theorem Sound.seek (hchain : l.Chain below name)
    (hfind : ∀ {d g}, l.Chain (name :: below) d → Sound l g →
      Ends (find (name :: below) d) g fun r g => l.Answers d r ∧ Sound l g)
    (h : Sound l g) :
    Ends (seek find below name) g fun r g => l.Answers name r ∧ Sound l g := by
  refine .get ?_
  cases hknown : g.known.lookup name with
  | some a => exact .pure ⟨h.known hknown, h⟩
  | none =>
    dsimp only
    split
    · next hmem =>
      have hmem : name ∈ below := List.contains_iff_mem.mp hmem
      exact .pure ⟨.looping name (hchain.listed name hmem) ⟨name, .refl, hchain.leads name hmem⟩, h⟩
    · next hmem =>
      have hnew : name ∉ below := fun hm => hmem (List.contains_iff_mem.mpr hm)
      refine .get ?_
      rw [h.find?]
      cases hc : l.find? name with
      | none => exact .pure ⟨.unknown hc, h⟩
      | some c =>
        have hlisted : l.find? name ≠ none := by simp [hc]
        refine .bind (h.signature (List.mem_of_find?_eq_some hc)) ?_
        rintro s g ⟨hs, hg⟩
        have hsupertypes : l.directSupertypes name = [] ++ supertypes c s := by
          rw [hs, List.nil_append, Library.directSupertypes_of_find? hc]
        have hstart : l.Gathered name 0 [(name, identity s)] := by
          have hsignature : l.signatureOf name = s := by
            rw [hs, Library.signatureOf, hc, Option.bind_some]
          exact hsignature ▸ .start l name
        refine .bind (hg.collect (fun hstep hg => hfind (hchain.up hnew hlisted hstep) hg)
          hsupertypes hstart) ?_
        rintro r g ⟨hr, hg⟩
        cases hr with
        | done traced =>
          have hanswer := Library.Answers.found hlisted traced
          exact .pure ⟨hanswer, hg.remember hanswer⟩
        | looping through hloop => exact .pure ⟨.looping through hlisted hloop, hg⟩

theorem Sound.searchOr (atLimit : String → Except AncestryError Ancestry) {n : Nat}
    (hchain : l.Chain below name) (hn : l.size < n + below.length) (h : Sound l g) :
    Ends (searchOr atLimit n below name) g fun r g => l.Answers name r ∧ Sound l g := by
  induction n generalizing below name g with
  | zero =>
    -- The classes below all differ, so there are no more of them than the library has.
    have := hchain.length_le
    omega
  | succ n ih =>
    refine h.seek hchain fun hup hg => ih hup ?_ hg
    rw [List.length_cons]
    omega

theorem Sound.collect_congr {c : String}
    {find find' : String → StateM Genealogy (Except AncestryError Ancestry)}
    (hfind : ∀ {d g}, l.Extends c d → Sound l g →
      Ends (find d) g fun r g => l.Answers d r ∧ Sound l g)
    (heq : ∀ {d g}, l.Extends c d → Sound l g → find d g = find' d g)
    {ts : List JType} (hts : ∀ t ∈ ts, t ∈ l.directSupertypes c)
    (found : Table String Substitution) (h : Sound l g) :
    Genealogy.collect find ts found g = Genealogy.collect find' ts found g := by
  induction ts generalizing found g with
  | nil => rfl
  | cons t ts ih =>
    obtain ⟨ht, hts⟩ := List.forall_mem_cons.mp hts
    rw [Genealogy.collect, Genealogy.collect]
    cases hd : t.className? with
    | none => exact ih hts found h
    | some d =>
      obtain ⟨i, hi⟩ := List.mem_iff_getElem?.mp ht
      have hstep : l.Extends c d := ⟨i, t, hi, hd⟩
      refine Ends.bind_congr (h.argumentsFor d t) rfl ?_
      rintro arguments g ⟨_, hg⟩
      refine Ends.get_congr ?_
      cases g.library.find? d with
      | none => exact ih hts _ hg
      | some _ =>
        refine Ends.bind_congr (hfind hstep hg) (heq hstep hg) ?_
        rintro r g ⟨_, hg⟩
        cases r with
        | error e => rfl
        | ok inherited => exact ih hts _ hg

theorem Sound.seek_congr
    {find' : List String → String → StateM Genealogy (Except AncestryError Ancestry)}
    (hchain : l.Chain below name)
    (hfind : ∀ {d g}, l.Chain (name :: below) d → Sound l g →
      Ends (find (name :: below) d) g fun r g => l.Answers d r ∧ Sound l g)
    (heq : ∀ {d g}, l.Chain (name :: below) d → Sound l g →
      find (name :: below) d g = find' (name :: below) d g)
    (h : Sound l g) : Genealogy.seek find below name g = Genealogy.seek find' below name g := by
  refine Ends.get_congr ?_
  cases g.known.lookup name with
  | some a => rfl
  | none =>
    dsimp only
    split
    · rfl
    · next hmem =>
      have hnew : name ∉ below := fun hm => hmem (List.contains_iff_mem.mpr hm)
      refine Ends.get_congr ?_
      rw [h.find?]
      cases hc : l.find? name with
      | none => rfl
      | some c =>
        have hlisted : l.find? name ≠ none := by simp [hc]
        have hfound := h.signature (List.mem_of_find?_eq_some hc)
        refine Ends.bind_congr hfound rfl ?_
        rintro s g ⟨hs, hg⟩
        have hsupertypes : ∀ t ∈ supertypes c s, t ∈ l.directSupertypes name := by
          rw [hs, Library.directSupertypes_of_find? hc]
          exact fun _ ht => ht
        have hcollect := hg.collect_congr
          (fun hstep hg => hfind (hchain.up hnew hlisted hstep) hg)
          (fun hstep hg => heq (hchain.up hnew hlisted hstep) hg)
          hsupertypes [(name, identity s)]
        exact Ends.bind_congr (P := fun _ _ => True) trivial hcollect fun _ _ _ => rfl

/-- Steps that are enough for the library never run out. -/
theorem Sound.searchOr_eq (atLimit atLimit' : String → Except AncestryError Ancestry) {n n' : Nat}
    (hchain : l.Chain below name) (hn : l.size < n + below.length)
    (hn' : l.size < n' + below.length) (h : Sound l g) :
    Genealogy.searchOr atLimit n below name g = Genealogy.searchOr atLimit' n' below name g := by
  induction n generalizing n' below name g with
  | zero =>
    have := hchain.length_le
    omega
  | succ n ih =>
    cases n' with
    | zero =>
      have := hchain.length_le
      omega
    | succ n' =>
      refine h.seek_congr hchain (fun hup hg => hg.searchOr atLimit hup ?_)
        (fun hup hg => ih hup ?_ ?_ hg) <;>
      · rw [List.length_cons]
        omega

theorem Sound.size (h : Sound l g) : g.library.size = l.size := congrArg List.length h.classes

theorem Sound.ancestry (h : Sound l g) (name : String) :
    Ends (ancestry name) g fun r g => l.Answers name r ∧ Sound l g := by
  have hsearch := h.searchOr (fun name => .error (.cycle name)) (.nil l name) (n := l.size + 1)
    (Nat.lt_succ_self _)
  rw [searchOr_cycle] at hsearch
  rw [Ends, Genealogy.ancestry, h.size]
  exact hsearch

end

/-- A library after some classes were asked for. -/
def asked (l : Library) (queries : List String) : Genealogy :=
  queries.foldl (fun g name => (ancestry name g).2) { library := l }

theorem sound_asked (l : Library) (queries : List String) : Sound l (asked l queries) := by
  suffices h : ∀ g, Sound l g → Sound l (queries.foldl (fun g name => (ancestry name g).2) g) from
    h _ (sound_start l)
  induction queries with
  | nil => exact fun _ h => h
  | cons name queries ih => exact fun g h => ih _ (h.ancestry name).2

/-- A search ends, whatever was asked for before. It fails if the class is missing, or if a class
above it is above itself. Otherwise it finds the classes above it, missing ones included. -/
theorem ancestry_outcome (l : Library) (queries : List String) (name : String) :
    let g := asked l queries
    let answer := (ancestry name g).1
    (∀ atLimit, ∀ n > l.size, searchOr atLimit n [] name g = ancestry name g) ∧
      (∀ other, answer = .error (.unknownClass other) ↔ l.find? name = none ∧ other = name) ∧
      ((∃ through, answer = .error (.cycle through)) ↔ l.find? name ≠ none ∧
        ∃ d, ReflTransGen l.Extends name d ∧ TransGen l.Extends d d) ∧
      ((∃ a, answer = .ok a) ↔ l.find? name ≠ none ∧
        ¬ ∃ d, ReflTransGen l.Extends name d ∧ TransGen l.Extends d d) ∧
      ∀ a, answer = .ok a → a.className = name ∧
        ∀ b, b ∈ a.ancestors.keys ↔ ReflTransGen l.Extends name b := by
  intro g answer
  have hg : Sound l g := sound_asked l queries
  refine ⟨fun atLimit n hn => ?_, ?_⟩
  · have hlimit : searchOr atLimit n [] name g = searchOr _ (l.size + 1) [] name g :=
      hg.searchOr_eq atLimit (fun name => .error (.cycle name)) (.nil l name) hn
        (Nat.lt_succ_self _)
    rw [hlimit, searchOr_cycle, ancestry, hg.size]
  · have hanswer : l.Answers name answer := (hg.ancestry name).1
    refine ⟨hanswer.unknown_iff, hanswer.cycle_iff, hanswer.ok_iff, fun a ha => ?_⟩
    obtain ⟨hname, htraced⟩ := (ha ▸ hanswer).of_ok
    exact ⟨hname, fun b => htraced.mem_keys_iff⟩

/-- The variables of an ancestor that have a value are those that the last supertype on the first
route to it gives an argument to, by position. The value is that argument, read through the
supertypes before it, the nearest one first. -/
theorem substitution_along_first_route (l : Library) (queries : List String)
    {name ancestor : String} {a : Ancestry} (hok : (ancestry name (asked l queries)).1 = .ok a)
    (hne : ancestor ≠ name) (hmem : ancestor ∈ a.ancestors.keys)
    (hdistinct : (l.parametersOf ancestor).Nodup) :
    ∃ before last s, l.FirstRoute name (before ++ [last]) ancestor ∧
      a.substitution? ancestor = some s ∧
      ∀ v y, s.lookup v = some y ↔ ∃ (i : Nat) (arg : TypeArg),
        (l.parametersOf ancestor)[i]? = some v ∧ last.2.args[i]? = some arg ∧
          y = before.foldr (fun e x => JType.substitute (l.supplied e.2) x) arg.standsFor := by
  have hanswer := ((sound_asked l queries).ancestry name).1
  obtain ⟨_, htraced⟩ := (hok ▸ hanswer).of_ok
  obtain ⟨s, hs⟩ := Table.mem_keys_iff.mp hmem
  obtain ⟨path, hfirst, _, hmeaning⟩ := htraced.found hne hs
  rcases List.eq_nil_or_concat' path with rfl | ⟨before, last, rfl⟩
  · cases hfirst.route
    exact absurd rfl hne
  refine ⟨before, last, s, hfirst, hs, fun v y => ?_⟩
  have hlookup : s.lookup v = _ := (hmeaning v).trans (l.meaning_append before last v)
  rw [hlookup, Option.map_eq_some_iff]
  simp only [Library.lookup_supplied hfirst.route.className?_last hdistinct]
  constructor
  · rintro ⟨x, ⟨i, arg, hv, harg, rfl⟩, rfl⟩
    exact ⟨i, arg, hv, harg, rfl⟩
  · rintro ⟨i, arg, hv, harg, rfl⟩
    exact ⟨_, ⟨i, arg, hv, harg, rfl⟩, rfl⟩

/-- Two routes lead from `A` to `M`; the one through `B` comes first. -/
def diamond : Library := Library.ofList
  [{ name := "M", signature := some "<K:LO;V:LO;>LO;" },
   { name := "B", signature := some "<E:LO;>LO;LM<TE;*>;" },
   { name := "A", signature := some "<T:LO;>LB<[TT;>;LM<TT;TT;>;" }]

theorem substitution_along_first_route_diamond :
    ∃ a, (ancestry "A" (asked diamond ["B"])).1 = .ok a ∧ "M" ≠ "A" ∧ "M" ∈ a.ancestors.keys ∧
      (diamond.parametersOf "M").Nodup ∧
      ∃ before last s, diamond.FirstRoute "A" (before ++ [last]) "M" ∧
        a.substitution? "M" = some s ∧
        ∀ v y, s.lookup v = some y ↔ ∃ (i : Nat) (arg : TypeArg),
          (diamond.parametersOf "M")[i]? = some v ∧ last.2.args[i]? = some arg ∧
            y = before.foldr (fun e x => JType.substitute (diamond.supplied e.2) x)
              arg.standsFor := by
  have hkeys : (ancestry "A" (asked diamond ["B"])).1.toOption.map (·.ancestors.keys) =
      some ["A", "B", "M", "O"] := by decide +kernel
  have hdistinct : (diamond.parametersOf "M").Nodup := by decide +kernel
  cases hok : (ancestry "A" (asked diamond ["B"])).1 with
  | error e =>
    rw [hok] at hkeys
    cases hkeys
  | ok a =>
    rw [hok] at hkeys
    have hlist : a.ancestors.keys = ["A", "B", "M", "O"] := Option.some.inj hkeys
    have hmem : "M" ∈ a.ancestors.keys := by
      rw [hlist]
      decide
    exact ⟨a, rfl, by decide, hmem, hdistinct,
      substitution_along_first_route diamond ["B"] hok (by decide) hmem hdistinct⟩

end Genealogy

end ClassSketch
