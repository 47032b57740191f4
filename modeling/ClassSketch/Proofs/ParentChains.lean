import ClassSketch.Proofs.ClaimRuns
import ClassSketch.Proofs.StepLimits
import Mathlib.Logic.Relation

/-! Chains of parents while nesting is settled. Every step keeps the links such that going from
parent to parent ends, so the search for what lies above a class ends at every moment. The search
never turns a class away that would not be turned away without it. -/

namespace ClassSketch

def parentIn : List Link → String → Option String
  | [], _ => none
  | link :: links, n => if link.child.name = n then some link.parent else parentIn links n

def Under (links : List Link) (n p : String) : Prop := parentIn links n = some p

/-- Goes up from parent to parent, looking for the candidate. There is no answer if the end was not
found after so many rounds. -/
def climb? (links : List Link) (candidate : String) : Nat → Option String → Option Bool
  | _, none => some false
  | 0, some _ => none
  | rounds + 1, some p =>
    if p = candidate then some true else climb? links candidate rounds (parentIn links p)

theorem parentIn_cons_self (link : Link) (links : List Link) :
    parentIn (link :: links) link.child.name = some link.parent := by
  simp [parentIn]

theorem parentIn_cons_of_ne {link : Link} {links : List Link} {n : String}
    (h : link.child.name ≠ n) : parentIn (link :: links) n = parentIn links n := by
  simp [parentIn, h]

theorem parentIn_eq_none_iff {links : List Link} {n : String} :
    parentIn links n = none ↔ n ∉ links.map (·.child.name) := by
  induction links with
  | nil => simp [parentIn]
  | cons link links ih =>
    by_cases hn : link.child.name = n
    · simp [parentIn, hn]
    · simp [parentIn, hn, ih, Ne.symm hn]

theorem exists_link_of_parentIn {links : List Link} {n p : String}
    (h : parentIn links n = some p) : ∃ link ∈ links, link.parent = p := by
  induction links with
  | nil => simp [parentIn] at h
  | cons link links ih =>
    by_cases hn : link.child.name = n
    · simp only [parentIn, hn, if_true, Option.some.injEq] at h
      exact ⟨link, List.mem_cons_self, h⟩
    · rw [parentIn_cons_of_ne hn] at h
      obtain ⟨l, hl, hp⟩ := ih h
      exact ⟨l, List.mem_cons_of_mem _ hl, hp⟩

theorem depthIn_le_length (links : List Link) (n : String) : depthIn links n ≤ links.length := by
  induction links generalizing n with
  | nil => simp [depthIn]
  | cons link links ih =>
    by_cases hn : link.child.name = n
    · subst hn
      rw [depthIn_cons_self, List.length_cons]
      have hup := ih link.parent
      omega
    · rw [depthIn_cons_of_ne hn, List.length_cons]
      have hup := ih n
      omega

theorem liesAbove_cons_self (c : String) (link : Link) (links : List Link) :
    liesAbove c link.child.name (link :: links) =
      (link.parent == c || liesAbove c link.parent links) := by
  simp [liesAbove]

theorem liesAbove_cons_of_ne {link : Link} {n : String} (c : String) (links : List Link)
    (h : link.child.name ≠ n) : liesAbove c n (link :: links) = liesAbove c n links := by
  simp [liesAbove, h]

namespace Linked

variable {roots : List String} {links : List Link}

/-- Nothing lies below the class that was put somewhere last. -/
theorem newest_ne_parent {link : Link} (h : Linked roots (link :: links)) {n p : String}
    (hp : parentIn (link :: links) n = some p) : link.child.name ≠ p := by
  obtain ⟨l, hl, hlp⟩ := exists_link_of_parentIn hp
  cases h with
  | cons earlier parent not_root fresh =>
    have habove : p ∈ roots ∨ p ∈ links.map (·.child.name) := by
      rcases List.mem_cons.mp hl with rfl | hl
      · exact hlp ▸ parent
      · exact hlp ▸ earlier.parent_mem l hl
    intro he
    rw [he] at not_root fresh
    exact habove.elim not_root fresh

theorem depthIn_parent (h : Linked roots links) {n p : String} (hp : parentIn links n = some p) :
    depthIn links n = depthIn links p + 1 := by
  induction h with
  | nil => cases hp
  | @cons link links earlier parent not_root fresh ih =>
    have hne := newest_ne_parent (.cons earlier parent not_root fresh) hp
    rw [depthIn_cons_of_ne hne]
    by_cases hn : link.child.name = n
    · subst hn
      rw [parentIn_cons_self, Option.some.injEq] at hp
      rw [depthIn_cons_self, hp]
    · rw [parentIn_cons_of_ne hn] at hp
      rw [depthIn_cons_of_ne hn, ih hp]

/-- Links that were made later can be left aside on the way up. -/
theorem liesAbove_eq (h : Linked roots links) (c n : String) :
    liesAbove c n links = (parentIn links n).any fun p => p == c || liesAbove c p links := by
  induction h with
  | nil => rfl
  | @cons link links earlier parent not_root fresh ih =>
    have hne : ∀ p, parentIn (link :: links) n = some p → link.child.name ≠ p :=
      fun p => newest_ne_parent (.cons earlier parent not_root fresh)
    by_cases hn : link.child.name = n
    · subst hn
      rw [parentIn_cons_self] at hne ⊢
      rw [liesAbove_cons_self, Option.any_some, liesAbove_cons_of_ne c links (hne _ rfl)]
    · rw [parentIn_cons_of_ne hn] at hne ⊢
      rw [liesAbove_cons_of_ne c links hn, ih]
      cases hp : parentIn links n with
      | none => rfl
      | some p => rw [Option.any_some, Option.any_some, liesAbove_cons_of_ne c links (hne p hp)]

/-- The way up takes as many rounds as the class is deep. -/
theorem climb?_eq (h : Linked roots links) (c n : String) {rounds : Nat}
    (hr : depthIn links n ≤ rounds) :
    climb? links c rounds (parentIn links n) = some (liesAbove c n links) := by
  induction rounds generalizing n with
  | zero =>
    cases hp : parentIn links n with
    | none => rw [h.liesAbove_eq, hp, climb?, Option.any_none]
    | some p =>
      have hdepth := h.depthIn_parent hp
      omega
  | succ rounds ih =>
    rw [h.liesAbove_eq]
    cases hp : parentIn links n with
    | none => rw [climb?, Option.any_none]
    | some p =>
      have hdepth := h.depthIn_parent hp
      rw [climb?, Option.any_some]
      by_cases hc : p = c
      · rw [if_pos hc, beq_iff_eq.mpr hc, Bool.true_or]
      · rw [if_neg hc, beq_eq_false_iff_ne.mpr hc, Bool.false_or]
        exact ih p (by omega)

theorem depthIn_lt (h : Linked roots links) {n c : String}
    (hup : Relation.TransGen (Under links) n c) : depthIn links c < depthIn links n := by
  induction hup with
  | single hp =>
    have hdepth := h.depthIn_parent hp
    omega
  | tail _ hp ih =>
    have hdepth := h.depthIn_parent hp
    omega

theorem acyclic (h : Linked roots links) (n : String) : ¬ Relation.TransGen (Under links) n n :=
  fun hup => Nat.lt_irrefl _ (h.depthIn_lt hup)

theorem liesAbove_iff (h : Linked roots links) {c n : String} :
    liesAbove c n links = true ↔ Relation.TransGen (Under links) n c := by
  constructor
  · intro ha
    induction hd : depthIn links n using Nat.strongRecOn generalizing n with
    | ind depth ih =>
      rw [h.liesAbove_eq] at ha
      cases hp : parentIn links n with
      | none => simp [hp] at ha
      | some p =>
        have hdepth := h.depthIn_parent hp
        rw [hp, Option.any_some, Bool.or_eq_true, beq_iff_eq] at ha
        rcases ha with rfl | ha
        · exact .single hp
        · exact .head hp (ih (depthIn links p) (by omega) ha rfl)
  · intro hup
    induction hup using Relation.TransGen.head_induction_on with
    | single hp =>
      rw [h.liesAbove_eq, hp]
      simp
    | head hp _ ih =>
      rw [h.liesAbove_eq, hp]
      simp [ih]

end Linked

/-- A walk ends with an empty queue. -/
theorem Walk.Sound.queue_fromRoot {g : Ground} {t : ClaimTable} {w : Walk} {root : String}
    (h : w.Sound g t) (hr : root ∈ g.unclaimed t) : (w.fromRoot g t root).queue = [] := by
  have hstart : ({ w with met := [root], queue := [root] } : Walk).Sound g t :=
    ⟨h.proper, h.linked, fun n hn => .inl (List.mem_singleton.mp hn ▸ hr)⟩
  refine (hstart.run_of_le ?_ (Nat.le_refl _)).2
  simp only [Ground.names, List.length_map, List.length_singleton]
  omega

/-- Where the settling of nesting has come to: its walk, what is still to be looked at of the class
whose turn it is, and the roots from which no walk has started yet. -/
structure Stage where
  walk : Walk := {}
  pending : List (ClassDecl × NestingEntry) := []
  roots : List String

namespace Stage

def start (g : Ground) (t : ClaimTable) : Stage := { roots := g.unclaimed t }

/-- The entries of a class whose turn has come. -/
def turn (g : Ground) (t : ClaimTable) (w : Walk) (name : String) :
    Walk × List (ClassDecl × NestingEntry) :=
  match g.find? name, t.nestedIn name with
  | none, _ | _, [] => (w, [])
  | some parent, _ =>
    match parent.nestingEntries with
    | [] => (w.warn (.noNestingEntries name), [])
    | entries => (w, entries.map (parent, ·))

/-- Looks at one entry, or takes the next class, or starts from the next root. -/
def next? (g : Ground) (t : ClaimTable) (s : Stage) : Option Stage :=
  match s.pending, s.walk.queue, s.roots with
  | (parent, e) :: pending, _, _ =>
    some { s with walk := s.walk.visitEntry g t parent (t.nestedIn parent.name) e, pending }
  | [], name :: queue, _ =>
    let (walk, pending) := turn g t { s.walk with queue } name
    some { s with walk, pending }
  | [], [], root :: roots =>
    some { s with walk := { s.walk with met := [root], queue := [root] }, roots }
  | [], [], [] => none

def Step (g : Ground) (t : ClaimTable) (s s' : Stage) : Prop := s.next? g t = some s'

abbrev Leads (g : Ground) (t : ClaimTable) := Relation.ReflTransGen (Step g t)

variable {g : Ground} {t : ClaimTable}

theorem turn_spec (g : Ground) (t : ClaimTable) (w : Walk) (name : String) :
    (turn g t w name).1.links = w.links ∧ (turn g t w name).1.queue = w.queue ∧
      (turn g t w name).1.met = w.met ∧
      ∀ x ∈ (turn g t w name).2, x.1 ∈ g.classes ∧ x.1.name = name ∧ x.2 ∈ x.1.nestingEntries := by
  rw [turn]
  cases hf : g.find? name with
  | none => simp
  | some parent =>
    cases hn : t.nestedIn name with
    | nil => simp
    | cons m ms =>
      cases he : parent.nestingEntries with
      | nil => simp [Walk.warn, he]
      | cons e es =>
        obtain ⟨hp, hname⟩ := Ground.find?_eq_some_iff.mp hf
        simp only [he, true_and]
        intro x hx
        obtain ⟨e', he', rfl⟩ := List.mem_map.mp hx
        exact ⟨hp, hname, he ▸ he'⟩

/-- The entries of a turn, one after another, are a visit. -/
theorem foldl_turn (g : Ground) (t : ClaimTable) (w : Walk) (name : String) :
    (turn g t w name).2.foldl (fun w x => w.visitEntry g t x.1 (t.nestedIn x.1.name) x.2)
      (turn g t w name).1 = w.visit g t name := by
  rw [turn, Walk.visit]
  cases hf : g.find? name with
  | none => rfl
  | some parent =>
    cases hn : t.nestedIn name with
    | nil => rfl
    | cons m ms =>
      cases he : parent.nestingEntries with
      | nil => simp [he]
      | cons e es =>
        obtain ⟨_, rfl⟩ := Ground.find?_eq_some_iff.mp hf
        simp only [he, List.foldl_map, hn]

theorem leads_pending (w : Walk) (pending : List (ClassDecl × NestingEntry)) (roots : List String) :
    Leads g t ⟨w, pending, roots⟩
      ⟨pending.foldl (fun w x => w.visitEntry g t x.1 (t.nestedIn x.1.name) x.2) w, [], roots⟩ := by
  induction pending generalizing w with
  | nil => exact .refl
  | cons x pending ih => exact .head rfl (ih _)

theorem leads_run (k : Nat) (w : Walk) (roots : List String) :
    Leads g t ⟨w, [], roots⟩ ⟨w.run g t k, [], roots⟩ := by
  induction k generalizing w with
  | zero => exact .refl
  | succ k ih =>
    cases hq : w.queue with
    | nil =>
      simp only [Walk.run, hq]
      exact .refl
    | cons name queue =>
      have hturn : Step g t ⟨w, [], roots⟩
          ⟨(turn g t { w with queue } name).1, (turn g t { w with queue } name).2, roots⟩ := by
        simp only [Step, next?, hq]
      have hvisit := leads_pending (g := g) (t := t) (turn g t { w with queue } name).1
        (turn g t { w with queue } name).2 roots
      rw [foldl_turn] at hvisit
      simp only [Walk.run, hq]
      exact .head hturn (hvisit.trans (ih _))

theorem leads_roots {roots : List String} (hsub : roots ⊆ g.unclaimed t) {w : Walk}
    (hw : w.Sound g t) (hq : w.queue = []) :
    Leads g t ⟨w, [], roots⟩ ⟨roots.foldl (Walk.fromRoot g t) w, [], []⟩ := by
  induction roots generalizing w with
  | nil => exact .refl
  | cons root roots ih =>
    obtain ⟨hroot, hsub⟩ := List.cons_subset.mp hsub
    have hstart : Step g t ⟨w, [], root :: roots⟩
        ⟨{ w with met := [root], queue := [root] }, [], roots⟩ := by
      simp only [Step, next?, hq]
    have hrest := ih hsub (hw.fromRoot hroot) (hw.queue_fromRoot hroot)
    exact .head hstart ((leads_run _ _ roots).trans hrest)

/-- The steps come to the end, and what they come to is the nesting. -/
theorem leads_nest (g : Ground) (t : ClaimTable) : Leads g t (start g t) ⟨g.nest t, [], []⟩ :=
  leads_roots (List.Subset.refl _) (Walk.sound_empty g t) rfl

theorem next?_nest (g : Ground) (t : ClaimTable) : next? g t ⟨g.nest t, [], []⟩ = none := by
  have hq := (g.nestWithin_of_lt t (Nat.lt_succ_self _)).2
  simp only [next?, hq]

/-- There is one way to go on, so what was come to from the start lies on the way to the end. -/
theorem leads_nest_of_leads {s : Stage} (h : Leads g t (start g t) s) :
    Leads g t s ⟨g.nest t, [], []⟩ := by
  have hunique : Relator.RightUnique (Step g t) := by
    intro s s₁ s₂ h₁ h₂
    rw [Step] at h₁ h₂
    exact Option.some.inj (h₁.symm.trans h₂)
  rcases Relation.ReflTransGen.total_of_right_unique hunique h (leads_nest g t) with hs | hs
  · exact hs
  · rcases hs.cases_head with rfl | ⟨s', hs', _⟩
    · exact .refl
    · rw [Step, next?_nest] at hs'
      cases hs'

/-- What every step keeps. The classes above one whose turn is still to come were met on this
walk. -/
structure Sound (g : Ground) (t : ClaimTable) (s : Stage) : Prop where
  walk : s.walk.Sound g t
  pending : ∀ x ∈ s.pending, x.1 ∈ g.classes ∧ x.2 ∈ x.1.nestingEntries ∧
    (x.1.name ∈ g.unclaimed t ∨ s.walk.isPlaced x.1.name = true)
  roots : s.roots ⊆ g.unclaimed t
  met : ∀ n, n ∈ s.walk.queue ∨ n ∈ s.pending.map (·.1.name) →
    n ∈ s.walk.met ∧ ∀ c, liesAbove c n s.walk.links = true → c ∈ s.walk.met

namespace Sound

variable {w : Walk} {roots : List String}

theorem entry {parent : ClassDecl} {e : NestingEntry} {pending : List (ClassDecl × NestingEntry)}
    (h : Sound g t ⟨w, (parent, e) :: pending, roots⟩) :
    Sound g t ⟨w.visitEntry g t parent (t.nestedIn parent.name) e, pending, roots⟩ := by
  obtain ⟨hp, he, hplace⟩ := h.pending _ List.mem_cons_self
  obtain ⟨hpm, hpabove⟩ := h.met parent.name (.inr List.mem_cons_self)
  refine ⟨h.walk.visitEntry hp hplace he, fun x hx => ?_, h.roots, fun n hn => ?_⟩
  · obtain ⟨hxc, hxe, hxp⟩ := h.pending x (List.mem_cons_of_mem _ hx)
    exact ⟨hxc, hxe, hxp.imp id Walk.isPlaced_visitEntry⟩
  · dsimp only at hn ⊢
    rcases Walk.visitEntry_cases g t parent (t.nestedIn parent.name) w e with
      ⟨child, claim, _, _, hname, _, _, hl, hq, hm⟩ | ⟨hl, hq, hm, _⟩
    · rw [hq] at hn
      rw [hl, hm]
      by_cases hne : e.inner = n
      · subst hne
        -- Above the class that was just put somewhere lie its parent and what lies above that.
        refine ⟨List.mem_cons_self, fun c hc => List.mem_cons_of_mem _ ?_⟩
        rw [← hname, ← Ground.linkUnder_name g t parent child claim, liesAbove_cons_self,
          Bool.or_eq_true, beq_iff_eq] at hc
        rcases hc with rfl | hc
        · exact hpm
        · exact hpabove c hc
      · have hold : n ∈ w.queue ∨ n ∈ ((parent, e) :: pending).map (·.1.name) := by
          simp only [List.mem_append, List.mem_singleton, Ne.symm hne, or_false] at hn
          exact hn.imp id (List.mem_cons_of_mem _)
        obtain ⟨hnm, habove⟩ := h.met n hold
        refine ⟨List.mem_cons_of_mem _ hnm, fun c hc => List.mem_cons_of_mem _ (habove c ?_)⟩
        rwa [liesAbove_cons_of_ne c w.links (hname.trans_ne hne)] at hc
    · rw [hq] at hn
      obtain ⟨hnm, habove⟩ := h.met n (hn.imp id (List.mem_cons_of_mem _))
      rw [hl]
      rcases hm with hm | ⟨_, hm⟩
      · rw [hm]
        exact ⟨hnm, habove⟩
      · rw [hm]
        exact ⟨List.mem_cons_of_mem _ hnm, fun c hc => List.mem_cons_of_mem _ (habove c hc)⟩

theorem turn {name : String} {queue : List String} (hq : w.queue = name :: queue)
    (h : Sound g t ⟨w, [], roots⟩) :
    Sound g t ⟨(Stage.turn g t { w with queue } name).1,
      (Stage.turn g t { w with queue } name).2, roots⟩ := by
  have hspec := turn_spec g t { w with queue } name
  generalize Stage.turn g t { w with queue } name = r at hspec ⊢
  obtain ⟨v, pending⟩ := r
  obtain ⟨hl, hqueue, hm, hpending⟩ := hspec
  dsimp only at hl hqueue hm hpending ⊢
  have hname : name ∈ w.queue := hq ▸ List.mem_cons_self
  have hsub : ∀ n ∈ v.queue, n ∈ w.queue := fun n hn => hq ▸ List.mem_cons_of_mem _ (hqueue ▸ hn)
  have hqueued : ∀ n ∈ w.queue, n ∈ g.unclaimed t ∨ v.isPlaced n = true := by
    intro n hn
    rw [Walk.isPlaced_iff, hl, ← Walk.isPlaced_iff]
    exact h.walk.queued n hn
  refine ⟨⟨hl ▸ h.walk.proper, hl ▸ h.walk.linked, fun n hn => hqueued n (hsub n hn)⟩,
    fun x hx => ?_, h.roots, fun n hn => ?_⟩
  · obtain ⟨hc, hxn, he⟩ := hpending x hx
    exact ⟨hc, he, hxn ▸ hqueued name hname⟩
  · dsimp only at hn ⊢
    rw [hl, hm]
    refine h.met n (.inl ?_)
    rcases hn with hn | hn
    · exact hsub n hn
    · obtain ⟨x, hx, rfl⟩ := List.mem_map.mp hn
      exact (hpending x hx).2.1 ▸ hname

theorem root {root : String} (h : Sound g t ⟨w, [], root :: roots⟩) :
    Sound g t ⟨{ w with met := [root], queue := [root] }, [], roots⟩ := by
  obtain ⟨hroot, hsub⟩ := List.cons_subset.mp h.roots
  refine ⟨⟨h.walk.proper, h.walk.linked, fun n hn => ?_⟩, by simp, hsub, fun n hn => ?_⟩
  · exact .inl (List.mem_singleton.mp hn ▸ hroot)
  · simp only [List.mem_singleton, List.map_nil, List.not_mem_nil, or_false] at hn
    subst hn
    refine ⟨List.mem_singleton_self _, fun c hc => ?_⟩
    have htop : parentIn w.links n = none :=
      parentIn_eq_none_iff.mpr fun hp => h.walk.linked.disjoint n hp hroot
    rw [h.walk.linked.liesAbove_eq, htop] at hc
    cases hc

theorem step {s s' : Stage} (h : s.Sound g t) (hs : Step g t s s') : s'.Sound g t := by
  obtain ⟨w, pending, roots⟩ := s
  cases pending with
  | cons x pending =>
    obtain rfl := Option.some.inj hs
    exact h.entry
  | nil =>
    cases hq : w.queue with
    | cons name queue =>
      simp only [Step, next?, hq, Option.some.injEq] at hs
      exact hs ▸ h.turn hq
    | nil =>
      cases roots with
      | cons root roots =>
        simp only [Step, next?, hq, Option.some.injEq] at hs
        exact hs ▸ h.root
      | nil => simp [Step, next?, hq] at hs

theorem start (g : Ground) (t : ClaimTable) : (Stage.start g t).Sound g t :=
  ⟨Walk.sound_empty g t, by simp [Stage.start], List.Subset.refl _, by simp [Stage.start]⟩

theorem of_leads {s : Stage} (h : Leads g t (Stage.start g t) s) : s.Sound g t := by
  induction h with
  | refl => exact start g t
  | tail _ hs ih => exact ih.step hs

end Sound

/-- At every moment while the nesting of a library is settled, the steps go on to their end. No
class lies above itself, so the way up from any class ends, after as many rounds as there are
classes at most. Classes in the queue are roots or were put somewhere, and a class that nobody
claims has no parent. If the class of an entry lies above the one that lists it, it was put
somewhere, and it was met on this walk. -/
theorem parent_chains_end (l : Library) (o : Options) (policy : Renaming) :
    let g := Ground.ofLibrary l o
    let t := (Census.take g policy).table
    next? g t ⟨g.nest t, [], []⟩ = none ∧
      ∀ s, Leads g t (start g t) s →
        Leads g t s ⟨g.nest t, [], []⟩ ∧
        (∀ n, ¬ Relation.TransGen (Under s.walk.links) n n) ∧
        (∀ c n, climb? s.walk.links c g.classes.length (parentIn s.walk.links n) =
            some (liesAbove c n s.walk.links) ∧
          (liesAbove c n s.walk.links = true ↔ Relation.TransGen (Under s.walk.links) n c)) ∧
        (∀ n ∈ s.walk.queue, n ∈ g.unclaimed t ∨ s.walk.isPlaced n = true) ∧
        (∀ n, t.isClaimed n = false → parentIn s.walk.links n = none) ∧
        ∀ parent e rest, s.pending = (parent, e) :: rest → e.inner ∈ t.nestedIn parent.name →
          liesAbove e.inner parent.name s.walk.links = true →
            s.walk.isPlaced e.inner = true ∧ e.inner ∈ s.walk.met := by
  intro g t
  refine ⟨next?_nest g t, fun s hs => ?_⟩
  have hsound := Sound.of_leads hs
  have hlinked := hsound.walk.linked
  refine ⟨leads_nest_of_leads hs, hlinked.acyclic, fun c n => ⟨?_, hlinked.liesAbove_iff⟩,
    hsound.walk.queued, fun n hn => ?_, fun parent e rest hpending hnested habove => ?_⟩
  · have hlen := hsound.walk.length_links
    rw [Ground.names, List.length_map] at hlen
    exact hlinked.climb?_eq c n (Nat.le_trans (depthIn_le_length _ n) hlen)
  · refine parentIn_eq_none_iff.mpr fun hp => ?_
    obtain ⟨link, hl, rfl⟩ := List.mem_map.mp hp
    obtain ⟨_, _, child, _, claim, hclaim, _, rfl⟩ := hsound.walk.proper link hl
    simp [ClaimTable.isClaimed, hclaim] at hn
  · have hclaimed : t.isClaimed e.inner = true :=
      Census.isClaimed_of_mem_nestedIn g policy _ _ hnested
    obtain ⟨link, hl, hparent⟩ := exists_link_of_liesAbove habove
    constructor
    · refine Walk.isPlaced_iff.mpr ((hparent ▸ hlinked.parent_mem link hl).resolve_left ?_)
      simp [Ground.mem_unclaimed, hclaimed]
    · exact (hsound.met parent.name (.inr (by simp [hpending]))).2 _ habove

section Ring

/-- A class that holds another one, which holds a third one, which claims to hold the second. -/
def ring : Library :=
  let entry (inner : String) : NestingEntry := { inner }
  .ofList [{ name := "a/R", nesting := some [entry "a/A"] },
    { name := "a/A", nesting := some [entry "a/B"] },
    { name := "a/B", nesting := some [entry "a/A"] }]

def after? (g : Ground) (t : ClaimTable) : Nat → Stage → Option Stage
  | 0, s => some s
  | k + 1, s => (s.next? g t).bind (after? g t k)

theorem leads_of_after? {k : Nat} {s s' : Stage} (h : after? g t k s = some s') :
    Leads g t s s' := by
  induction k generalizing s with
  | zero => exact Option.some.inj h ▸ .refl
  | succ k ih =>
    obtain ⟨s₁, hs, h⟩ := Option.bind_eq_some_iff.mp h
    exact .head hs (ih h)

/-- When the turn of the third class has come, the second one lies above it and is named by its
entry. It was put somewhere, and no chain closes. -/
theorem parent_chains_end_ring :
    let g := Ground.ofLibrary ring {}
    let t := (Census.take g .keep).table
    ∃ s parent e, Leads g t (start g t) s ∧ s.pending = [(parent, e)] ∧
      e.inner ∈ t.nestedIn parent.name ∧
      Relation.TransGen (Under s.walk.links) parent.name e.inner ∧
      s.walk.isPlaced e.inner = true ∧
      (∀ n, ¬ Relation.TransGen (Under s.walk.links) n n) ∧
      parentIn s.walk.links "a/R" = none := by
  intro g t
  have hrun : (after? g t 6 (start g t)).any (fun s =>
      decide (s.pending.map (fun x => (x.1.name, x.2.inner)) = [("a/B", "a/A")]) &&
        liesAbove "a/A" "a/B" s.walk.links) = true ∧
      "a/A" ∈ t.nestedIn "a/B" ∧ t.isClaimed "a/R" = false := by
    decide +kernel
  obtain ⟨hany, hnested, hfree⟩ := hrun
  obtain ⟨s, hs, hpass⟩ := (Option.any_eq_true _ _).mp hany
  rw [Bool.and_eq_true, decide_eq_true_iff] at hpass
  obtain ⟨⟨parent, e⟩, hpending, hnames⟩ := List.map_eq_singleton_iff.mp hpass.1
  obtain ⟨hparent, hinner⟩ := Prod.mk.inj hnames
  have hleads : Leads g t (start g t) s := leads_of_after? hs
  obtain ⟨_, hacyclic, hclimb, _, hroot, hentry⟩ := (parent_chains_end ring {} .keep).2 s hleads
  have habove : liesAbove e.inner parent.name s.walk.links = true := by
    rw [hparent, hinner]
    exact hpass.2
  have hlisted : e.inner ∈ t.nestedIn parent.name := by
    rw [hparent, hinner]
    exact hnested
  exact ⟨s, parent, e, hleads, hpending, hlisted, (hclimb _ _).2.mp habove,
    (hentry parent e [] hpending hlisted habove).1, hacyclic, hroot "a/R" hfree⟩

end Ring

end Stage

end ClassSketch
