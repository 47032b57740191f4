import ClassSketch.Proofs.ClaimRuns

/-! When a class's own word about itself stands. A claim that agrees with the settled one is dropped
together with its source. So a class's own word is lost where another class said the same first and
an enclosing class then contradicts that one. Apart from such claims it stands in every order. -/

namespace ClassSketch

namespace ClaimTable

/-- `h` drives `f` out, although `f` describes the class as the class itself does in `d`. -/
structure Overrules (d f h : Claim) : Prop where
  about : f.inner = d.inner ∧ h.inner = d.inner
  repeats : f.agrees d = true
  foreign : f.source ≠ d.inner
  contradicts : ¬ h.agrees d = true
  encloses : h.source = h.enclosing
  apart : f.source ≠ h.source

theorem Overrules.displaces {d f h : Claim} (ho : Overrules d f h) : h.displaces f = true := by
  refine Claim.displaces_iff.mpr ⟨fun ha => ho.contradicts ?_, ?_, .inr ⟨ho.encloses, ?_⟩⟩
  · exact Claim.agrees_trans (Claim.agrees_symm ha) ho.repeats
  · rw [ho.about.1]
    exact ho.foreign
  · rw [← ho.encloses]
    exact ho.apart

theorem against_of_own {c d : Claim} {o : Option Claim} (hc : c.agrees d = true)
    (hi : c.inner = d.inner) (hsrc : c.source = d.inner)
    (ho : ∀ s, o = some s → s.inner = d.inner ∧ (s.source = d.inner → s.agrees d = true)) :
    (c.against o).agrees d = true := by
  cases o with
  | none => exact hc
  | some s =>
    obtain ⟨hsi, hs⟩ := ho s rfl
    by_cases hx : c.displaces s = true
    · simpa only [Claim.against, hx, if_true] using hc
    · simp only [Claim.against, hx]
      by_cases hown : s.source = d.inner
      · exact hs hown
      · have hsame : s.agrees c = true := by
          by_contra hdis
          exact hx (Claim.displaces_iff.mpr ⟨hdis, hsi ▸ hown, .inl (hi ▸ hsrc)⟩)
        exact Claim.agrees_trans hsame hc

/-- A settled claim that keeps to the own word gives way only to such a claim, if it is not
overruled. -/
theorem against_of_kept {c s d : Claim} (hs : s.agrees d = true) (hsi : s.inner = d.inner)
    (hi : c.inner = d.inner) (hown : c.source = d.inner → c.agrees d = true)
    (hno : ¬ Overrules d s c) : (c.against (some s)).agrees d = true := by
  by_cases hx : c.displaces s = true
  · simp only [Claim.against, hx, if_true]
    obtain ⟨_, hfor, hrank⟩ := Claim.displaces_iff.mp hx
    rcases hrank with hsrc | ⟨henc, hap⟩
    · exact hown (hsrc.trans hi)
    · by_contra hca
      exact hno ⟨⟨hsi, hi⟩, hs, hsi ▸ hfor, hca, henc, henc ▸ hap⟩
  · simp only [Claim.against, hx]
    exact hs

theorem own_word_stands {cs : List Claim} {d : Claim}
    (hagree : ∀ c ∈ cs, c.inner = d.inner → c.source = d.inner → c.agrees d = true)
    (hno : ∀ f ∈ cs, ∀ h ∈ cs, ¬ Overrules d f h)
    (hown : ∃ c ∈ cs, c.inner = d.inner ∧ c.source = d.inner) :
    ∃ s, (ofClaims cs).claim? d.inner = some s ∧ s.agrees d = true := by
  induction cs using List.reverseRecOn with
  | nil => simp at hown
  | append_singleton cs c ih =>
    have hmem : ∀ {x}, x ∈ cs → x ∈ cs ++ [c] := fun hx => List.mem_append_left _ hx
    have hc : c ∈ cs ++ [c] := by simp
    have ih := ih (fun x hx => hagree x (hmem hx)) fun f hf h hh => hno f (hmem hf) h (hmem hh)
    have hold : ¬ (c.inner = d.inner ∧ c.source = d.inner) →
        ∃ s, (ofClaims cs).claim? d.inner = some s ∧ s.agrees d = true := by
      intro hnot
      obtain ⟨x, hx, hxi⟩ := hown
      rcases List.mem_append.mp hx with hx | hx
      · exact ih ⟨x, hx, hxi⟩
      · exact absurd (List.mem_singleton.mp hx ▸ hxi) hnot
    rw [ofClaims_concat, claim?_merge]
    by_cases hi : c.inner = d.inner
    · rw [if_pos hi]
      refine ⟨_, rfl, ?_⟩
      by_cases hsrc : c.source = d.inner
      · refine against_of_own (hagree c hc hi hsrc) hi hsrc fun s hs => ?_
        obtain ⟨hsm, hsi⟩ := claim?_mem hs
        exact ⟨hsi, hagree s (hmem hsm) hsi⟩
      · obtain ⟨s, hs, hag⟩ := hold fun h => hsrc h.2
        obtain ⟨hsm, hsi⟩ := claim?_mem hs
        rw [hs]
        exact against_of_kept hag hsi hi (hagree c hc hi) (hno s (hmem hsm) c hc)
    · rw [if_neg hi]
      exact hold fun h => hi h.1

theorem first_stands {f : Claim} {cs : List Claim}
    (h : ∀ c ∈ cs, c.inner = f.inner → f.agrees c = true) :
    (ofClaims (f :: cs)).claim? f.inner = some f := by
  induction cs using List.reverseRecOn with
  | nil => simp [ofClaims, merge, settle, claim?]
  | append_singleton cs c ih =>
    have ih := ih fun x hx => h x (List.mem_append_left _ hx)
    rw [← List.cons_append, ofClaims_concat]
    by_cases hi : c.inner = f.inner
    · have hx : ¬ c.displaces f = true := fun hd =>
        (Claim.displaces_iff.mp hd).1 (h c (by simp) hi)
      rw [claim?_merge, if_pos hi, ih]
      simp [Claim.against, hx]
    · rw [claim?_merge_of_ne hi, ih]

/-- From a claim that keeps to the own word, claims that do not keep to it lead away for good as
soon as one of them overrules it. -/
theorem overruled {d f h : Claim} (ho : Overrules d f h) {cs ds : List Claim}
    (hf : (ofClaims cs).claim? d.inner = some f)
    (hds : ∀ c ∈ ds, ¬ c.agrees d = true) :
    ∃ s, (ofClaims (cs ++ ds)).claim? d.inner = some s ∧ (s = f ∨ ¬ s.agrees d = true) ∧
      (h ∈ ds → ¬ s.agrees d = true) := by
  induction ds using List.reverseRecOn with
  | nil => exact ⟨f, by simpa using hf, .inl rfl, by simp⟩
  | append_singleton ds c ih =>
    obtain ⟨s, hs, hsf, hsh⟩ := ih fun x hx => hds x (List.mem_append_left _ hx)
    have hca := hds c (by simp)
    rw [← List.append_assoc, ofClaims_concat]
    by_cases hi : c.inner = d.inner
    · rw [claim?_merge, if_pos hi, hs]
      refine ⟨_, rfl, ?_⟩
      by_cases hx : c.displaces s = true
      · simp only [Claim.against, hx, if_true]
        exact ⟨.inr hca, fun _ => hca⟩
      · simp only [Claim.against, hx]
        refine ⟨hsf, fun hm => ?_⟩
        rcases List.mem_append.mp hm with hm | hm
        · exact hsh hm
        · rcases hsf with rfl | hsf
          · exact absurd (List.mem_singleton.mp hm ▸ ho.displaces) hx
          · exact hsf
    · rw [claim?_merge_of_ne hi]
      refine ⟨s, hs, hsf, fun hm => ?_⟩
      rcases List.mem_append.mp hm with hm | hm
      · exact hsh hm
      · exact absurd (List.mem_singleton.mp hm ▸ ho.about.2) hi

/-- Where some claim overrules another, the own word loses if all that agree with it come first. -/
theorem exists_order_lost {cs : List Claim} {d f h : Claim} (hf : f ∈ cs) (hh : h ∈ cs)
    (ho : Overrules d f h) :
    ∃ ds, ds.Perm cs ∧ ∃ s, (ofClaims ds).claim? d.inner = some s ∧ ¬ s.agrees d = true := by
  have hhf : h ≠ f := fun he => ho.contradicts (he ▸ ho.repeats)
  have hfirst : (ofClaims (f :: (cs.erase f).filter (·.agrees d))).claim? f.inner = some f := by
    apply first_stands
    intro c hc _
    exact Claim.agrees_trans ho.repeats (Claim.agrees_symm (List.mem_filter.mp hc).2)
  have hrest : ∀ c ∈ (cs.erase f).filter (fun c => !c.agrees d), ¬ c.agrees d = true :=
    fun c hc => by simpa using (List.mem_filter.mp hc).2
  obtain ⟨s, hs, _, hsh⟩ := overruled ho (ho.about.1 ▸ hfirst) hrest
  refine ⟨_, ?_, s, hs, hsh ?_⟩
  · exact ((List.filter_append_perm _ _).cons f).trans (List.perm_cons_erase hf).symm
  · exact List.mem_filter.mpr ⟨(List.mem_erase_of_ne hhf).mpr hh, by simpa using ho.contradicts⟩

/-- A class that speaks about itself, always alike, is described by its own word whatever the order
of the claims, unless an enclosing class contradicts a third one that repeats that word. -/
theorem own_word_wins_iff {cs : List Claim} {d : Claim} (hd : d ∈ cs) (hown : d.source = d.inner)
    (hagree : ∀ c ∈ cs, c.inner = d.inner → c.source = d.inner → c.agrees d = true) :
    (∀ ds, ds.Perm cs → ∃ s, (ofClaims ds).claim? d.inner = some s ∧
        s.simpleName = d.simpleName ∧ s.kind = d.kind ∧ s.access = d.access) ↔
      ∀ f ∈ cs, ∀ h ∈ cs, ¬ Overrules d f h := by
  simp only [← Claim.agrees_iff]
  constructor
  · intro hall f hf h hh ho
    obtain ⟨ds, hp, s, hs, hna⟩ := exists_order_lost hf hh ho
    obtain ⟨s', hs', ha⟩ := hall ds hp
    rw [hs, Option.some.injEq] at hs'
    exact hna (hs' ▸ ha)
  · intro hno ds hp
    apply own_word_stands
    · exact fun c hc => hagree c (hp.mem_iff.mp hc)
    · exact fun f hf h hh => hno f (hp.mem_iff.mp hf) h (hp.mem_iff.mp hh)
    · exact ⟨d, hp.mem_iff.mpr hd, rfl, hown⟩

def memberClaim (source : String) (access : AccessFlags) : Claim :=
  { inner := "a/O$I", enclosing := "a/O", simpleName := some "I", kind := .member, access, source }

theorem own_word_wins_contradicted :
    (memberClaim "a/O$I" .publicFlag).source = "a/O$I" ∧
      ∀ ds, ds.Perm [memberClaim "a/O" .privateFlag, memberClaim "a/T" .staticFlag,
          memberClaim "a/O$I" .publicFlag] →
        ∃ s, (ofClaims ds).claim? "a/O$I" = some s ∧ s.simpleName = some "I" ∧ s.kind = .member ∧
          s.access = .publicFlag := by
  refine ⟨rfl, ?_⟩
  refine (own_word_wins_iff (d := memberClaim "a/O$I" .publicFlag)
    (by decide) rfl (by decide)).mpr ?_
  intro f hf h hh ho
  have hrepeats := ho.repeats
  have hforeign := ho.foreign
  simp only [List.mem_cons, List.not_mem_nil, or_false] at hf
  rcases hf with rfl | rfl | rfl
  · revert hrepeats
    decide
  · revert hrepeats
    decide
  · exact hforeign rfl

/-- Three claims are enough for a class to lose its word: a third class repeats it first, so that
the class's own claim is dropped, and the host then drives the third class's claim out. -/
theorem own_word_lost : ¬ ∀ (cs : List Claim) (d : Claim), d ∈ cs → d.source = d.inner →
    (∀ c ∈ cs, c.inner = d.inner → c.source = d.inner → c.agrees d = true) →
    ∃ s, (ofClaims cs).claim? d.inner = some s ∧ s.simpleName = d.simpleName ∧ s.kind = d.kind ∧
      s.access = d.access := by
  intro hall
  obtain ⟨s, hs, _, _, haccess⟩ := hall [memberClaim "a/T" .publicFlag,
    memberClaim "a/O$I" .publicFlag, memberClaim "a/O" .privateFlag]
    (memberClaim "a/O$I" .publicFlag) (by decide) rfl (by decide)
  have hsettled : (ofClaims [memberClaim "a/T" .publicFlag, memberClaim "a/O$I" .publicFlag,
      memberClaim "a/O" .privateFlag]).claim? "a/O$I" = some (memberClaim "a/O" .privateFlag) := by
    decide
  rw [show (memberClaim "a/O$I" .publicFlag).inner = "a/O$I" from rfl, hsettled] at hs
  rw [← Option.some.inj hs] at haccess
  revert haccess
  decide

end ClaimTable

end ClassSketch
