import ClassSketch.Proofs.Walks

/-! Walks are breadth first. While a walk goes on, what lies in the classes that were looked at
has been put somewhere, and the classes in the queue are ordered by depth and span two levels at
most. -/

namespace ClassSketch

theorem rootIn_of_not_mem {links : List Link} {n : String}
    (h : n ∉ links.map (·.child.name)) : rootIn links n = n := by
  induction links with
  | nil => rfl
  | cons link links ih =>
    rw [List.map_cons, List.mem_cons, not_or] at h
    rw [rootIn_cons_of_ne (Ne.symm h.1), ih h.2]

theorem depthIn_of_not_mem {links : List Link} {n : String}
    (h : n ∉ links.map (·.child.name)) : depthIn links n = 0 := by
  induction links with
  | nil => rfl
  | cons link links ih =>
    rw [List.map_cons, List.mem_cons, not_or] at h
    rw [depthIn_cons_of_ne (Ne.symm h.1), ih h.2]

/-- The walks from `roots` so far: the classes that were looked at, in this order, those that are
still to be looked at, and the links that were made. -/
structure Surveyed (g : Ground) (t : ClaimTable) (roots looked front : List String)
    (links : List Link) : Prop where
  linked : Linked (g.unclaimed t) links
  rooted : ∀ n ∈ links.map (·.child.name), rootIn links n ∈ roots
  legit : ∀ p ∈ looked ++ front, p ∈ g.unclaimed t ∨ p ∈ links.map (·.child.name)
  spread : ∀ n, n ∈ roots ∨ n ∈ links.map (·.child.name) → n ∈ looked ++ front
  closed : ∀ p ∈ looked, ∀ c, g.Nests t p c → c ∈ links.map (·.child.name) ∧
    rootIn links c ≤ rootIn links p ∧
      (rootIn links c = rootIn links p → depthIn links c ≤ depthIn links p + 1)
  first : ∀ link ∈ links, ∃ pre post, looked ++ front = pre ++ link.parent :: post ∧
    ∀ q ∈ pre, ¬ g.Nests t q link.child.name

/-- The queue of the walk from `root`. -/
structure Level (root : String) (front : List String) (links : List Link) : Prop where
  rooted : ∀ q ∈ front, rootIn links q = root
  sorted : front.Pairwise fun a b => depthIn links a ≤ depthIn links b
  near : ∀ q ∈ front, ∀ n ∈ links.map (·.child.name), rootIn links n = root →
    depthIn links n ≤ depthIn links q + 1

theorem Surveyed.start {g : Ground} {t : ClaimTable} {roots looked : List String}
    {links : List Link} (h : Surveyed g t roots looked [] links) {r : String}
    (hr : r ∈ g.unclaimed t) : Surveyed g t (roots ++ [r]) looked [r] links := by
  have hlooked := List.append_nil looked
  refine ⟨h.linked, ?_, ?_, ?_, h.closed, ?_⟩
  · exact fun n hn => List.mem_append_left _ (h.rooted n hn)
  · intro p hp
    rcases List.mem_append.mp hp with hp | hp
    · exact h.legit p (hlooked.symm ▸ hp)
    · exact .inl (List.mem_singleton.mp hp ▸ hr)
  · intro n hn
    rw [List.mem_append, or_assoc] at hn
    rcases hn with hn | hn | hn
    · exact List.mem_append_left _ (hlooked ▸ h.spread n (.inl hn))
    · exact List.mem_append_right _ hn
    · exact List.mem_append_left _ (hlooked ▸ h.spread n (.inr hn))
  · intro link hl
    obtain ⟨pre, post, hsplit, hfirst⟩ := h.first link hl
    rw [hlooked] at hsplit
    exact ⟨pre, post ++ [r], by simp [hsplit], hfirst⟩

theorem Surveyed.level_start {g : Ground} {t : ClaimTable} {roots looked : List String}
    {links : List Link} (h : Surveyed g t roots looked [] links) {r : String}
    (hr : r ∈ g.unclaimed t) (hnew : r ∉ roots) : Level r [r] links := by
  have hout : r ∉ links.map (·.child.name) := fun hm => h.linked.disjoint r hm hr
  refine ⟨?_, List.pairwise_singleton _ _, ?_⟩
  · intro q hq
    rw [List.mem_singleton.mp hq, rootIn_of_not_mem hout]
  · intro q _ n hn hroot
    exact absurd (hroot ▸ h.rooted n hn) hnew

theorem Surveyed.ne_of_legit {g : Ground} {t : ClaimTable} {roots looked front : List String}
    {links : List Link} (h : Surveyed g t roots looked front links) {c : String}
    (hroot : c ∉ g.unclaimed t) (hfresh : c ∉ links.map (·.child.name)) {q : String}
    (hq : q ∈ looked ++ front) : c ≠ q := by
  rintro rfl
  exact (h.legit c hq).elim hroot hfresh

theorem Surveyed.place {g : Ground} {t : ClaimTable} {roots looked queue : List String} {p : String}
    {links : List Link} (h : Surveyed g t roots looked (p :: queue) links) (link : Link)
    (hparent : link.parent = p) (hroot : link.child.name ∉ g.unclaimed t)
    (hfresh : link.child.name ∉ links.map (·.child.name)) (hp : rootIn links p ∈ roots) :
    Surveyed g t roots looked (p :: (queue ++ [link.child.name])) (link :: links) := by
  have horder : looked ++ p :: (queue ++ [link.child.name]) =
      looked ++ p :: queue ++ [link.child.name] := by simp
  have hne : ∀ {q}, q ∈ looked ++ p :: queue → link.child.name ≠ q :=
    fun hq => h.ne_of_legit hroot hfresh hq
  have hpm : p ∈ looked ++ p :: queue := List.mem_append_right _ List.mem_cons_self
  refine ⟨?_, ?_, ?_, ?_, ?_, ?_⟩
  · exact .cons h.linked (hparent ▸ h.legit p hpm) hroot hfresh
  · intro n hn
    rcases List.mem_cons.mp hn with rfl | hn
    · rwa [rootIn_cons_self, hparent]
    · rw [rootIn_cons_of_ne (hne (h.spread n (.inr hn)))]
      exact h.rooted n hn
  · intro q hq
    rw [horder, List.mem_append, List.mem_singleton] at hq
    rcases hq with hq | rfl
    · exact (h.legit q hq).imp id (List.mem_cons_of_mem _)
    · exact .inr List.mem_cons_self
  · intro n hn
    rw [List.map_cons, List.mem_cons, or_left_comm] at hn
    rw [horder, List.mem_append, List.mem_singleton]
    exact hn.symm.imp (h.spread n) id
  · intro q hq c hc
    obtain ⟨hplaced, hle, hdepth⟩ := h.closed q hq c hc
    have hqn := hne (List.mem_append_left _ hq)
    have hcn := hne (h.spread c (.inr hplaced))
    rw [rootIn_cons_of_ne hqn, rootIn_cons_of_ne hcn, depthIn_cons_of_ne hqn,
      depthIn_cons_of_ne hcn]
    exact ⟨List.mem_cons_of_mem _ hplaced, hle, hdepth⟩
  · intro l hl
    rcases List.mem_cons.mp hl with rfl | hl
    · -- what was looked at before would have been the parent
      refine ⟨looked, queue ++ [l.child.name], by rw [hparent], fun q hq hc => ?_⟩
      exact hfresh (h.closed q hq _ hc).1
    · obtain ⟨pre, post, hsplit, hfirst⟩ := h.first l hl
      exact ⟨pre, post ++ [link.child.name], by rw [horder, hsplit]; simp, hfirst⟩

/-- The queue stays ordered: all that waits lies one level below the class that is looked at, at
most, and the new class lies there. -/
theorem Level.place {g : Ground} {t : ClaimTable} {roots looked queue : List String} {p r : String}
    {links : List Link} (h : Level r (p :: queue) links)
    (hs : Surveyed g t roots looked (p :: queue) links) (link : Link) (hparent : link.parent = p)
    (hroot : link.child.name ∉ g.unclaimed t)
    (hfresh : link.child.name ∉ links.map (·.child.name)) :
    Level r (p :: (queue ++ [link.child.name])) (link :: links) := by
  have hne : ∀ {q}, q ∈ p :: queue → link.child.name ≠ q :=
    fun hq => hs.ne_of_legit hroot hfresh (List.mem_append_right _ hq)
  have hdepth : depthIn (link :: links) link.child.name = depthIn links p + 1 := by
    rw [depthIn_cons_self, hparent]
  have hle : ∀ q ∈ p :: queue, depthIn links q ≤ depthIn links p + 1 := by
    intro q hq
    rcases hs.legit q (List.mem_append_right _ hq) with hu | hm
    · rw [depthIn_of_not_mem fun hm => hs.linked.disjoint q hm hu]
      exact Nat.zero_le _
    · exact h.near p List.mem_cons_self q hm (h.rooted q hq)
  have hsplit : ∀ q, q ∈ p :: (queue ++ [link.child.name]) →
      q ∈ p :: queue ∨ q = link.child.name := by
    intro q hq
    rwa [← List.cons_append, List.mem_append, List.mem_singleton] at hq
  refine ⟨?_, ?_, ?_⟩
  · intro q hq
    rcases hsplit q hq with hq | rfl
    · rw [rootIn_cons_of_ne (hne hq), h.rooted q hq]
    · rw [rootIn_cons_self, hparent, h.rooted p List.mem_cons_self]
  · rw [← List.cons_append, List.pairwise_append]
    refine ⟨?_, List.pairwise_singleton _ _, ?_⟩
    · refine h.sorted.imp_of_mem fun {a b} ha hb hab => ?_
      rwa [depthIn_cons_of_ne (hne ha), depthIn_cons_of_ne (hne hb)]
    · intro q hq c hc
      rw [List.mem_singleton.mp hc, hdepth, depthIn_cons_of_ne (hne hq)]
      exact hle q hq
  · intro q hq n hn hnr
    have hbound : depthIn (link :: links) n ≤ depthIn links p + 1 := by
      by_cases hnc : link.child.name = n
      · exact Nat.le_of_eq (hnc ▸ hdepth)
      · rw [depthIn_cons_of_ne hnc]
        rw [rootIn_cons_of_ne hnc] at hnr
        have hm := (List.mem_cons.mp hn).resolve_left (Ne.symm hnc)
        exact h.near p List.mem_cons_self n hm hnr
    have hpq : depthIn links p ≤ depthIn (link :: links) q := by
      rcases hsplit q hq with hq | rfl
      · rw [depthIn_cons_of_ne (hne hq)]
        rcases List.mem_cons.mp hq with rfl | hq
        · exact Nat.le_refl _
        · exact (List.pairwise_cons.mp h.sorted).1 q hq
      · rw [hdepth]
        exact Nat.le_succ _
    omega

/-- A class was looked at once all that lies in it has been put somewhere. -/
theorem Surveyed.look {g : Ground} {t : ClaimTable} {roots looked queue : List String}
    {p r : String}
    {links : List Link} (h : Surveyed g t roots looked (p :: queue) links)
    (hlevel : Level r (p :: queue) links) (hle : ∀ u ∈ roots, u ≤ r)
    (hall : ∀ c, g.Nests t p c → c ∈ links.map (·.child.name)) :
    Surveyed g t roots (looked ++ [p]) queue links := by
  have horder : looked ++ [p] ++ queue = looked ++ p :: queue := by simp
  refine ⟨h.linked, h.rooted, horder ▸ h.legit, horder ▸ h.spread, ?_, horder ▸ h.first⟩
  intro q hq c hc
  rcases List.mem_append.mp hq with hq | hq
  · exact h.closed q hq c hc
  · obtain rfl := List.mem_singleton.mp hq
    have hm := hall c hc
    rw [hlevel.rooted q List.mem_cons_self]
    exact ⟨hm, hle _ (h.rooted c hm), hlevel.near q List.mem_cons_self c hm⟩

theorem Level.tail {p r : String} {queue : List String} {links : List Link}
    (h : Level r (p :: queue) links) : Level r queue links :=
  ⟨fun q hq => h.rooted q (List.mem_cons_of_mem _ hq), (List.pairwise_cons.mp h.sorted).2,
    fun q hq => h.near q (List.mem_cons_of_mem _ hq)⟩

namespace Walk

def MetPlaced (g : Ground) (t : ClaimTable) (w : Walk) : Prop :=
  ∀ n ∈ w.met, n ∈ g.names → t.isClaimed n = true → w.isPlaced n = true

/-- After an entry was looked at, its class has a place if it is there and is claimed. -/
theorem placed_visitEntry {g : Ground} {t : ClaimTable} {parent : ClassDecl} {w : Walk}
    {e : NestingEntry} (h : w.Sound g t) (hmet : w.MetPlaced g t)
    (hroot : parent.name ∈ g.unclaimed t ∨ w.isPlaced parent.name = true)
    (hn : e.inner ∈ t.nestedIn parent.name) (hg : e.inner ∈ g.names)
    (hcl : t.isClaimed e.inner = true) :
    (w.visitEntry g t parent (t.nestedIn parent.name) e).isPlaced e.inner = true := by
  have hclaimed : e.inner ∉ g.unclaimed t := fun hu => by
    simp [(Ground.mem_unclaimed.mp hu).2] at hcl
  rcases visitEntry_cases g t parent (t.nestedIn parent.name) w e with
    ⟨child, claim, _, _, hname, _, _, hl, _⟩ | ⟨hl, _, _, hskip⟩
  · rw [isPlaced_iff, hl, List.map_cons, Ground.linkUnder_name, hname]
    exact List.mem_cons_self
  · rw [isPlaced_iff, hl, ← isPlaced_iff]
    rcases hskip hn hg hcl with hm | hself | hp | habove
    · exact hmet _ hm hg hcl
    · rw [hself] at hclaimed ⊢
      exact hroot.resolve_left hclaimed
    · exact hp
    · obtain ⟨link, hlink, hpar⟩ := exists_link_of_liesAbove habove
      rw [isPlaced_iff]
      exact (hpar ▸ h.linked.parent_mem link hlink).resolve_left hclaimed

theorem MetPlaced.visitEntry {g : Ground} {t : ClaimTable} {parent : ClassDecl} {w : Walk}
    {e : NestingEntry} (hmet : w.MetPlaced g t) (h : w.Sound g t)
    (hroot : parent.name ∈ g.unclaimed t ∨ w.isPlaced parent.name = true) :
    (w.visitEntry g t parent (t.nestedIn parent.name) e).MetPlaced g t := by
  have hold : ∀ n ∈ w.met, n ∈ g.names → t.isClaimed n = true →
      (w.visitEntry g t parent (t.nestedIn parent.name) e).isPlaced n = true :=
    fun n hn hg hcl => isPlaced_visitEntry (hmet n hn hg hcl)
  have hnew : e.inner ∈ t.nestedIn parent.name → ∀ n ∈ e.inner :: w.met, n ∈ g.names →
      t.isClaimed n = true →
        (w.visitEntry g t parent (t.nestedIn parent.name) e).isPlaced n = true := by
    intro he n hn hg hcl
    rcases List.mem_cons.mp hn with rfl | hn
    · exact placed_visitEntry h hmet hroot he hg hcl
    · exact hold n hn hg hcl
  rcases visitEntry_cases g t parent (t.nestedIn parent.name) w e with
    ⟨_, _, he, _, _, _, _, _, _, hm⟩ | ⟨_, _, hm | ⟨he, hm⟩, _⟩
  · exact fun n hn => hnew he n (hm ▸ hn)
  · exact fun n hn => hold n (hm ▸ hn)
  · exact fun n hn => hnew he n (hm ▸ hn)

/-- The state of the walk from `root`, the last of `roots`, with all that came before. -/
structure Survey (g : Ground) (t : ClaimTable) (roots : List String) (root : String)
    (looked front : List String) (w : Walk) : Prop where
  sound : w.Sound g t
  met : w.MetPlaced g t
  surveyed : Surveyed g t roots looked front w.links
  level : Level root front w.links

theorem Survey.legit {g : Ground} {t : ClaimTable} {roots looked queue : List String} {r n : String}
    {w : Walk} (h : w.Survey g t roots r looked (n :: queue)) :
    n ∈ g.unclaimed t ∨ w.isPlaced n = true := by
  rw [isPlaced_iff]
  exact h.surveyed.legit n (List.mem_append_right _ List.mem_cons_self)

theorem Survey.visitEntry {g : Ground} {t : ClaimTable} {roots looked : List String} {r : String}
    {parent : ClassDecl} {w : Walk} {e : NestingEntry}
    (h : w.Survey g t roots r looked (parent.name :: w.queue)) (hr : r ∈ roots)
    (hp : parent ∈ g.classes) (he : e ∈ parent.nestingEntries) :
    (w.visitEntry g t parent (t.nestedIn parent.name) e).Survey g t roots r looked
      (parent.name :: (w.visitEntry g t parent (t.nestedIn parent.name) e).queue) := by
  have hsound := h.sound.visitEntry hp h.legit he
  have hmet := h.met.visitEntry (e := e) h.sound h.legit
  rcases visitEntry_cases g t parent (t.nestedIn parent.name) w e with
    ⟨child, claim, _, _, hname, hplaced, hcl, hl, hq, _⟩ | ⟨hl, hq, _⟩
  · have hroot : child.name ∉ g.unclaimed t := by
      simp [Ground.mem_unclaimed, ClaimTable.isClaimed, hname, hcl]
    have hfresh : child.name ∉ w.links.map (·.child.name) := by
      rw [← isPlaced_iff, hname, hplaced]
      exact Bool.false_ne_true
    have hin : rootIn w.links parent.name ∈ roots := by
      rwa [h.level.rooted _ List.mem_cons_self]
    refine ⟨hsound, hmet, ?_, ?_⟩
    · rw [hl, hq, ← hname]
      exact h.surveyed.place (g.linkUnder t parent child claim) rfl hroot hfresh hin
    · rw [hl, hq, ← hname]
      exact h.level.place h.surveyed (g.linkUnder t parent child claim) rfl hroot hfresh
  · exact ⟨hsound, hmet, by rw [hl, hq]; exact h.surveyed, by rw [hl, hq]; exact h.level⟩

theorem Survey.scan {g : Ground} {t : ClaimTable} {roots looked : List String} {r : String}
    {parent : ClassDecl} (ht : ∀ p, ∀ c ∈ t.nestedIn p, t.isClaimed c = true) (hr : r ∈ roots)
    (hp : parent ∈ g.classes) {es : List NestingEntry} (hes : ∀ e ∈ es, e ∈ parent.nestingEntries)
    {w : Walk} (h : w.Survey g t roots r looked (parent.name :: w.queue)) :
    let w' := es.foldl (Walk.visitEntry g t parent (t.nestedIn parent.name)) w
    w'.Survey g t roots r looked (parent.name :: w'.queue) ∧
      (∀ n, w.isPlaced n = true → w'.isPlaced n = true) ∧
      ∀ e ∈ es, e.inner ∈ t.nestedIn parent.name → e.inner ∈ g.names →
        w'.isPlaced e.inner = true := by
  induction es generalizing w with
  | nil => exact ⟨h, fun _ hn => hn, by simp⟩
  | cons e es ih =>
    have hstep := h.visitEntry hr hp (hes e List.mem_cons_self)
    obtain ⟨hw, hkeep, hall⟩ := ih (fun e' he' => hes e' (List.mem_cons_of_mem _ he')) hstep
    refine ⟨hw, fun n hn => hkeep n (isPlaced_visitEntry hn), ?_⟩
    intro e' he' hn hg
    rcases List.mem_cons.mp he' with rfl | he'
    · exact hkeep _ (placed_visitEntry h.sound h.met h.legit hn hg (ht _ _ hn))
    · exact hall e' he' hn hg

theorem Survey.visit {g : Ground} {t : ClaimTable} {roots looked : List String} {r n : String}
    (ht : ∀ p, ∀ c ∈ t.nestedIn p, t.isClaimed c = true) (hr : r ∈ roots) (hle : ∀ u ∈ roots, u ≤ r)
    {w : Walk} (h : w.Survey g t roots r looked (n :: w.queue)) :
    (w.visit g t n).Survey g t roots r (looked ++ [n]) (w.visit g t n).queue := by
  rcases visit_cases g t w n with ⟨parent, hp, rfl, hv⟩ | ⟨hl, hq, hm, hnone⟩
  · rw [hv]
    obtain ⟨hw, _, hall⟩ := h.scan ht hr hp (fun _ he => he)
    refine ⟨hw.sound, hw.met, hw.surveyed.look hw.level hle ?_, hw.level.tail⟩
    rintro c ⟨hg, hn, d, hd, hdn, e, he, rfl⟩
    have hdp : d = parent := List.inj_on_of_nodup_map g.distinct hd hp hdn
    exact isPlaced_iff.mp (hall e (hdp ▸ he) hn hg)
  · refine ⟨h.sound.visit h.legit, ?_, ?_, ?_⟩
    · intro m hm' hg hcl
      rw [isPlaced_iff, hl, ← isPlaced_iff]
      exact h.met m (hm ▸ hm') hg hcl
    · rw [hl, hq]
      exact h.surveyed.look h.level hle fun c hc => absurd hc (hnone c)
    · rw [hl, hq]
      exact h.level.tail

theorem queue_visitEntry (g : Ground) (t : ClaimTable) (parent : ClassDecl) (nested : List String)
    (w : Walk) (e : NestingEntry) :
    (w.visitEntry g t parent nested e).queue.length + w.links.length =
      w.queue.length + (w.visitEntry g t parent nested e).links.length := by
  rcases visitEntry_cases g t parent nested w e with
    ⟨_, _, _, _, _, _, _, hl, hq, _⟩ | ⟨hl, hq, _⟩
  · simp only [hl, hq, List.length_append, List.length_cons, List.length_nil]
    omega
  · rw [hl, hq]

theorem queue_visit (g : Ground) (t : ClaimTable) (w : Walk) (n : String) :
    (w.visit g t n).queue.length + w.links.length =
      w.queue.length + (w.visit g t n).links.length := by
  rcases visit_cases g t w n with ⟨parent, _, _, hv⟩ | ⟨hl, hq, _⟩
  · rw [hv]
    refine List.foldlRecOn (motive := fun v : Walk =>
      v.queue.length + w.links.length = w.queue.length + v.links.length) _ _ rfl ?_
    intro v hv e _
    have hstep := queue_visitEntry g t parent (t.nestedIn n) v e
    omega
  · rw [hl, hq]

theorem Sound.length_links {g : Ground} {t : ClaimTable} {w : Walk} (h : w.Sound g t) :
    w.links.length ≤ g.names.length := by
  have hsub := List.subperm_of_subset h.linked.nodup_names h.placed_mem
  simpa using hsub.length_le

/-- The classes that are looked at, in their order. -/
def visits (g : Ground) (t : ClaimTable) : Nat → Walk → List String
  | 0, _ => []
  | n + 1, w =>
    match w.queue with
    | [] => []
    | name :: queue => name :: visits g t n (({ w with queue } : Walk).visit g t name)

/-- The number of classes bounds the number of steps, so a walk ends with an empty queue. -/
theorem Survey.run {g : Ground} {t : ClaimTable} {roots looked : List String} {r : String}
    (ht : ∀ p, ∀ c ∈ t.nestedIn p, t.isClaimed c = true) (hr : r ∈ roots) (hle : ∀ u ∈ roots, u ≤ r)
    (k : Nat) {w : Walk} (h : w.Survey g t roots r looked w.queue)
    (hk : w.queue.length + g.names.length ≤ k + w.links.length) :
    (w.run g t k).Survey g t roots r (looked ++ w.visits g t k) [] := by
  induction k generalizing w looked with
  | zero =>
    have hlen := h.sound.length_links
    have hq : w.queue = [] := List.eq_nil_of_length_eq_zero (by omega)
    rw [visits, List.append_nil]
    exact hq ▸ h
  | succ k ih =>
    cases hq : w.queue with
    | nil =>
      simp only [Walk.run, visits, hq, List.append_nil]
      exact hq ▸ h
    | cons n queue =>
      have hpop : ({ w with queue } : Walk).Survey g t roots r looked (n :: queue) := by
        refine ⟨⟨h.sound.proper, h.sound.linked, fun m hm => ?_⟩, h.met, hq ▸ h.surveyed,
          hq ▸ h.level⟩
        exact h.sound.queued m (hq ▸ List.mem_cons_of_mem _ hm)
      have hstep := Survey.visit (w := { w with queue }) ht hr hle hpop
      have hlen := queue_visit g t { w with queue } n
      simp only [Walk.run, visits, hq]
      rw [List.append_cons]
      apply ih hstep
      rw [hq, List.length_cons] at hk
      simp only at hlen
      omega

def visitsFrom (g : Ground) (t : ClaimTable) : List String → Walk → List String
  | [], _ => []
  | root :: roots, w =>
    visits g t (g.classes.length + 1) { w with met := [root], queue := [root] }
      ++ visitsFrom g t roots (w.fromRoot g t root)

theorem Sound.survey_start {g : Ground} {t : ClaimTable} {roots looked : List String} {r : String}
    {w : Walk} (h : w.Sound g t) (hs : Surveyed g t roots looked [] w.links)
    (hr : r ∈ g.unclaimed t) (hnew : r ∉ roots) :
    ({ w with met := [r], queue := [r] } : Walk).Survey g t (roots ++ [r]) r looked [r] := by
  refine ⟨⟨h.proper, h.linked, ?_⟩, ?_, hs.start hr, hs.level_start hr hnew⟩
  · exact fun n hn => .inl (List.mem_singleton.mp hn ▸ hr)
  · intro n hn _ hcl
    rw [List.mem_singleton.mp hn] at hcl
    simp [(Ground.mem_unclaimed.mp hr).2] at hcl

theorem Sound.survey_fromRoot {g : Ground} {t : ClaimTable} {roots looked : List String}
    {r : String}
    (ht : ∀ p, ∀ c ∈ t.nestedIn p, t.isClaimed c = true) {w : Walk} (h : w.Sound g t)
    (hs : Surveyed g t roots looked [] w.links) (hr : r ∈ g.unclaimed t)
    (hlt : ∀ u ∈ roots, u < r) :
    Surveyed g t (roots ++ [r])
      (looked ++ visits g t (g.classes.length + 1) { w with met := [r], queue := [r] }) []
      (w.fromRoot g t r).links := by
  have hnew : r ∉ roots := fun hm => String.lt_irrefl r (hlt r hm)
  have hle : ∀ u ∈ roots ++ [r], u ≤ r := by
    intro u hu
    rcases List.mem_append.mp hu with hu | hu
    · exact (String.le_total u r).resolve_right (String.not_le.mpr (hlt u hu))
    · obtain rfl := List.mem_singleton.mp hu
      exact String.le_refl u
  refine (Survey.run ht (by simp) hle _ (h.survey_start hs hr hnew) ?_).surveyed
  simp only [Ground.names, List.length_map, List.length_singleton]
  omega

theorem survey_roots {g : Ground} {t : ClaimTable}
    (ht : ∀ p, ∀ c ∈ t.nestedIn p, t.isClaimed c = true) {us roots looked : List String} {w : Walk}
    (h : w.Sound g t) (hs : Surveyed g t roots looked [] w.links)
    (hus : ∀ u ∈ us, u ∈ g.unclaimed t) (hsorted : (roots ++ us).Pairwise (· < ·)) :
    Surveyed g t (roots ++ us) (looked ++ visitsFrom g t us w) []
      (us.foldl (fromRoot g t) w).links := by
  induction us generalizing roots looked w with
  | nil => simpa [visitsFrom] using hs
  | cons r us ih =>
    have hr := hus r List.mem_cons_self
    have hlt : ∀ u ∈ roots, u < r := fun u hu =>
      (List.pairwise_append.mp hsorted).2.2 u hu r List.mem_cons_self
    have hstep := h.survey_fromRoot ht hs hr hlt
    rw [List.append_cons] at hsorted ⊢
    rw [visitsFrom, ← List.append_assoc, List.foldl_cons]
    exact ih (h.fromRoot hr) hstep (fun u hu => hus u (List.mem_cons_of_mem _ hu)) hsorted

end Walk

namespace Ground

/-- The classes that are looked at when nesting is settled, in their order. -/
def visits (g : Ground) (t : ClaimTable) : List String := Walk.visitsFrom g t (g.unclaimed t) {}

theorem strictly_sorted_unclaimed (g : Ground) (t : ClaimTable) :
    (g.unclaimed t).Pairwise (· < ·) := by
  refine ((g.sorted_unclaimed t).and (g.nodup_unclaimed t)).imp fun {a b} hab => ?_
  by_contra hlt
  exact hab.2 (String.le_antisymm hab.1 (String.not_lt.mp hlt))

theorem surveyed_nest {g : Ground} {t : ClaimTable}
    (ht : ∀ p, ∀ c ∈ t.nestedIn p, t.isClaimed c = true) :
    Surveyed g t (g.unclaimed t) (g.visits t) [] (g.nest t).links := by
  have hstart : Surveyed g t [] [] [] ({} : Walk).links :=
    ⟨.nil, by simp, by simp, by simp, by simp, by simp⟩
  exact Walk.survey_roots ht (Walk.sound_empty g t) hstart (fun u hu => hu)
    (g.strictly_sorted_unclaimed t)

end Ground

end ClassSketch
