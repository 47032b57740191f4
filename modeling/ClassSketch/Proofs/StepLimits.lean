import ClassSketch.Proofs.Pooling
import ClassSketch.Proofs.Ancestors
import ClassSketch.Proofs.Spelling
import ClassSketch.Proofs.Survey

/-! Limits on steps that are never met. Readers of signatures, walks over nested classes and searches
for ancestors are given a number of steps. Whatever the input is, they end before that, so with more
steps they would do the same. -/

namespace ClassSketch

namespace Signature

/-- A reader that takes something whenever it succeeds. -/
def Takes {α : Type} (read : List Char → Read α) : Prop :=
  ∀ {cs rest : List Char} {a : α}, read cs = some (a, rest) → rest.length < cs.length

end Signature

namespace Walk

/-- A walk stops by itself: the classes it looks at differ, so the steps suffice. -/
theorem Sound.run_of_le {g : Ground} {t : ClaimTable} {w : Walk} (h : w.Sound g t) {k n : Nat}
    (hk : w.queue.length + g.names.length ≤ k + w.links.length) (hn : k ≤ n) :
    w.run g t n = w.run g t k ∧ (w.run g t k).queue = [] := by
  induction k generalizing w n with
  | zero =>
    have hlen := h.length_links
    have hq : w.queue = [] := List.eq_nil_of_length_eq_zero (by omega)
    refine ⟨?_, hq⟩
    cases n with
    | zero => rfl
    | succ n => simp only [Walk.run, hq]
  | succ k ih =>
    obtain ⟨n, rfl⟩ : ∃ m, n = m + 1 := ⟨n - 1, by omega⟩
    cases hq : w.queue with
    | nil =>
      have hstop : ∀ m, w.run g t (m + 1) = w := fun m => by simp only [Walk.run, hq]
      rw [hstop, hstop]
      exact ⟨rfl, hq⟩
    | cons name queue =>
      have hpop : ({ w with queue } : Walk).Sound g t :=
        ⟨h.proper, h.linked, fun m hm => h.queued m (hq ▸ List.mem_cons_of_mem _ hm)⟩
      have hstep := hpop.visit (h.queued name (hq ▸ List.mem_cons_self))
      have hlen := queue_visit g t { w with queue } name
      simp only [Walk.run, hq]
      apply ih hstep
      · rw [hq, List.length_cons] at hk
        simp only at hlen
        omega
      · omega

end Walk

namespace Ground

/-- The nesting of classes with a limit on the steps of each walk. -/
def nestWithin (limit : Nat) (g : Ground) (t : ClaimTable) : Walk :=
  (g.unclaimed t).foldl
    (fun w root => ({ w with met := [root], queue := [root] } : Walk).run g t limit) {}

theorem nestWithin_of_lt (g : Ground) (t : ClaimTable) {limit : Nat}
    (h : g.classes.length < limit) : g.nestWithin limit t = g.nest t ∧ (g.nest t).queue = [] := by
  have hroots : ∀ roots ⊆ g.unclaimed t, ∀ w : Walk, w.Sound g t → w.queue = [] →
      roots.foldl (fun w root => ({ w with met := [root], queue := [root] } : Walk).run g t limit) w =
          roots.foldl (Walk.fromRoot g t) w ∧
        (roots.foldl (Walk.fromRoot g t) w).queue = [] := by
    intro roots
    induction roots with
    | nil => exact fun _ w _ hq => ⟨rfl, hq⟩
    | cons root roots ih =>
      intro hsub w hw _
      obtain ⟨hroot, hsub⟩ := List.cons_subset.mp hsub
      have hstart : ({ w with met := [root], queue := [root] } : Walk).Sound g t :=
        ⟨hw.proper, hw.linked, fun n hn => .inl (List.mem_singleton.mp hn ▸ hroot)⟩
      have hsteps : [root].length + g.names.length ≤ g.classes.length + 1 + w.links.length := by
        rw [names, List.length_map, List.length_singleton]
        omega
      obtain ⟨hrun, hend⟩ := hstart.run_of_le hsteps h
      rw [List.foldl_cons, List.foldl_cons, hrun]
      exact ih hsub _ (hw.fromRoot hroot) hend
  exact hroots _ (List.Subset.refl _) {} (Walk.sound_empty g t) rfl

end Ground

namespace Genealogy

section

variable {P : Genealogy → Prop} {g : Genealogy}

theorem Stable.collect_congr (h : Stable P)
    {find find' : String → StateM Genealogy (Except AncestryError Ancestry)}
    (hfind : ∀ name {g}, P g → P (find name g).2)
    (heq : ∀ name {g}, P g → find name g = find' name g) (ts : List JType)
    (found : Table String Substitution) (hg : P g) :
    Genealogy.collect find ts found g = Genealogy.collect find' ts found g := by
  induction ts generalizing found g with
  | nil => rfl
  | cons t ts ih =>
    rw [Genealogy.collect, Genealogy.collect]
    cases t.className? with
    | none => exact ih found hg
    | some name =>
      refine Ends.bind_congr (P := fun _ g => P g) (h.argumentsFor name t hg) rfl ?_
      intro arguments g hg
      refine Ends.get_congr ?_
      cases g.library.find? name with
      | none => exact ih _ hg
      | some _ =>
        refine Ends.bind_congr (P := fun _ g => P g) (hfind name hg) (heq name hg) ?_
        intro r g hg
        cases r with
        | error e => rfl
        | ok inherited => exact ih _ hg

end

end Genealogy

end ClassSketch
