import ClassSketch.Command.Run
import ClassSketch.Proofs.Partition
import ClassSketch.Proofs.Tables

/-! Where files are written. A file goes to the place to which the name of its class leads from the
output folder, and nothing looks at the steps of that name. It lies under every folder just when the
name never climbs above its start and does not begin at the top. -/

namespace ClassSketch

namespace Place

/-- Strictly under a folder: there is a way down to it, and all its steps go down. -/
def Under (p q : Place) : Prop :=
  p.absolute = q.absolute ∧ ∃ way, way ≠ [] ∧ ".." ∉ way ∧ p.parts = q.parts ++ way

/-- A name that leads one step down. -/
def LeadsDown (name : String) : Prop := name ≠ "" ∧ name ≠ "." ∧ name ≠ ".."

theorem leadsDown_of_length {name : String} (h : 2 < name.length) : LeadsDown name := by
  refine ⟨?_, ?_, ?_⟩ <;>
  · rintro rfl
    revert h
    decide

/-- The place that a way down leads to. -/
def down (q : Place) (way : List String) : Place := { q with parts := q.parts ++ way }

theorem down_nil (q : Place) : q.down [] = q := by rw [down, List.append_nil]

theorem step_name (q : Place) (way : List String) {name : String} (h : LeadsDown name) :
    (q.down way).step name = q.down (way ++ [name]) := by
  simp [step, down, h.1, h.2.1, h.2.2]

theorem step_up (q : Place) {way : List String} (hne : way ≠ []) (hway : ".." ∉ way) :
    (q.down way).step ".." = q.down way.dropLast := by
  have hlast : (q.parts ++ way).getLast? = some (way.getLast hne) := by
    rw [List.getLast?_append_of_ne_nil _ hne, List.getLast?_eq_some_getLast hne]
  have hdown : way.getLast hne ≠ ".." := fun he => hway (he ▸ List.getLast_mem hne)
  have hup : (q.down way).up = q.down way.dropLast := by
    simp [up, down, hlast, hdown, List.dropLast_append_of_ne_nil hne]
  exact hup

theorem absolute_step (p : Place) (name : String) : (p.step name).absolute = p.absolute := by
  rw [step, up]
  split
  · rfl
  · split
    · split
      · split <;> rfl
      · split <;> rfl
    · rfl

theorem absolute_foldl_step (names : List String) (p : Place) :
    (names.foldl step p).absolute = p.absolute := by
  induction names generalizing p with
  | nil => rfl
  | cons name names ih => rw [List.foldl_cons, ih, absolute_step]

theorem not_mem_step {name other : String} {p : Place} (hp : other ∉ p.parts)
    (hup : other ≠ "..") (hname : other ≠ name) : other ∉ (p.step name).parts := by
  rw [step, up]
  split
  · exact hp
  · split
    · split
      · split
        · exact hp
        · simpa using hup
      · split
        · simpa [hup] using hp
        · exact fun hm => hp (List.dropLast_subset _ hm)
    · simpa [hname] using hp

theorem not_mem_foldl_step {other : String} (hup : other ≠ "..") {names : List String} {p : Place}
    (hp : other ∉ p.parts) (hnames : other ∉ names) : other ∉ (names.foldl step p).parts := by
  induction names generalizing p with
  | nil => exact hp
  | cons name names ih =>
    rw [List.mem_cons, not_or] at hnames
    exact ih (not_mem_step hp hup hnames.1) hnames.2

end Place

namespace Path

/-- Whether a way never leads above its start, from where it has come down `depth` steps. -/
def keepsBelow : Nat → List String → Bool
  | _, [] => true
  | depth, name :: names =>
    if name = "" || name = "." then keepsBelow depth names
    else if name = ".." then 0 < depth && keepsBelow (depth - 1) names
    else keepsBelow (depth + 1) names

/-- A path that leads down from wherever it starts. -/
def descends (p : Path) : Bool := !p.absolute && keepsBelow 0 p.parts

end Path

open ClassSketch.Path

namespace Place

/-- A way that keeps below a folder ends at the folder or under it. -/
theorem exists_down_of_keepsBelow (q : Place) {names way : List String} (hway : ".." ∉ way)
    (h : keepsBelow way.length names = true) :
    ∃ way', ".." ∉ way' ∧ names.foldl step (q.down way) = q.down way' := by
  induction names generalizing way with
  | nil => exact ⟨way, hway, rfl⟩
  | cons name names ih =>
    rw [keepsBelow] at h
    rw [List.foldl_cons]
    split at h
    · next hstay =>
      have hstep : (q.down way).step name = q.down way := if_pos hstay
      rw [hstep]
      exact ih hway h
    · next hstay =>
      split at h
      · next hup =>
        subst hup
        obtain ⟨hdepth, hrest⟩ := Bool.and_eq_true_iff.mp h
        have hne : way ≠ [] := by
          rintro rfl
          simp at hdepth
        rw [step_up q hne hway]
        refine ih (fun hm => hway (List.dropLast_subset _ hm)) ?_
        rw [List.length_dropLast]
        exact hrest
      · next hup =>
        simp only [Bool.or_eq_true, decide_eq_true_eq, not_or] at hstay
        rw [step_name q way ⟨hstay.1, hstay.2, hup⟩]
        refine ih ?_ ?_
        · simpa [hway] using Ne.symm hup
        · rw [List.length_append]
          exact h

/-- A way that does not keep below a folder of which it never speaks does not come back to it. -/
theorem not_mem_of_not_keepsBelow {other : String} (hother : other ≠ "..") {absolute : Bool}
    {names way : List String} (hway : ".." ∉ way) (hmem : other ∉ way) (hnames : other ∉ names)
    (h : keepsBelow way.length names = false) :
    other ∉ (names.foldl step (down ⟨absolute, [other]⟩ way)).parts := by
  induction names generalizing way with
  | nil => cases h
  | cons name names ih =>
    rw [keepsBelow] at h
    rw [List.mem_cons, not_or] at hnames
    rw [List.foldl_cons]
    split at h
    · next hstay =>
      have hstep : (down ⟨absolute, [other]⟩ way).step name = down ⟨absolute, [other]⟩ way :=
        if_pos hstay
      rw [hstep]
      exact ih hway hmem hnames.2 h
    · next hstay =>
      split at h
      · next hup =>
        subst hup
        by_cases hne : way = []
        · subst hne
          have hout : (down ⟨absolute, [other]⟩ []).step ".." = ⟨absolute, []⟩ := by
            simp [down, step, up, hother]
          rw [hout]
          exact not_mem_foldl_step hother List.not_mem_nil hnames.2
        · rw [step_up _ hne hway]
          have hlength : way.length ≠ 0 := fun h0 => hne (List.length_eq_zero_iff.mp h0)
          refine ih (fun hm => hway (List.dropLast_subset _ hm))
            (fun hm => hmem (List.dropLast_subset _ hm)) hnames.2 ?_
          rw [List.length_dropLast]
          simpa [Nat.pos_of_ne_zero hlength] using h
      · next hup =>
        simp only [Bool.or_eq_true, decide_eq_true_eq, not_or] at hstay
        rw [step_name _ way ⟨hstay.1, hstay.2, hup⟩]
        refine ih ?_ ?_ hnames.2 ?_
        · simpa [hway] using Ne.symm hup
        · simpa [hmem] using hnames.1
        · rw [List.length_append]
          exact h

end Place

namespace Path

theorem foldl_stem (dir : Path) (p : Place) :
    dir.stem.foldl Place.step p = dir.parts.foldl Place.step p := by
  rw [stem]
  split
  · next hlast =>
    have hlast := eq_of_beq hlast
    obtain ⟨parts, hparts⟩ := List.getLast?_eq_some_iff.mp hlast
    rw [hparts, List.dropLast_concat, List.foldl_append]
    rfl
  · rfl

theorem absolute_join_of_relative {dir p : Path} (hrel : p.absolute = false) (hne : p.parts ≠ []) :
    (dir.join p).absolute = dir.absolute := by
  rw [join, if_neg (by simp [hrel])]
  obtain ⟨parts⟩ := dir
  match parts with
  | [] => exact hrel
  | [a] =>
    by_cases ha : a = ""
    · subst ha
      exact hrel
    · simp [stem, absolute, ha]
  | a :: b :: rest =>
    have hlength : 0 < p.parts.length := List.length_pos_of_ne_nil hne
    have hstem : ∃ more, stem ⟨a :: b :: rest⟩ = a :: more := by
      rw [stem]
      split
      · exact ⟨_, List.dropLast_cons_cons⟩
      · exact ⟨_, rfl⟩
    obtain ⟨more, hstem⟩ := hstem
    have hlong : 1 < (a :: more ++ p.parts).length := by
      rw [List.length_append, List.length_cons]
      omega
    rw [absolute, absolute, hstem, decide_eq_true hlong]
    simp

/-- A relative path goes on from its folder. -/
theorem ofPath_join {dir p : Path} (hrel : p.absolute = false) (hne : p.parts ≠ []) :
    Place.ofPath (dir.join p) = p.parts.foldl Place.step (Place.ofPath dir) := by
  have hjoin : (dir.join p).parts = dir.stem ++ p.parts := by rw [join, if_neg (by simp [hrel])]
  rw [Place.ofPath, absolute_join_of_relative hrel hne, hjoin, List.foldl_append, foldl_stem]
  rfl

theorem splitSlashes_of_not_mem {cs : List Char} (h : '/' ∉ cs) (name : List Char) :
    splitSlashes name cs = [name.reverse ++ cs] := by
  induction cs generalizing name with
  | nil => simp [splitSlashes]
  | cons c cs ih =>
    rw [List.mem_cons, not_or] at h
    have hc : ¬ (c == '/') = true := fun he => h.1 (eq_of_beq he).symm
    rw [splitSlashes, if_neg hc, ih h.2]
    simp

/-- An ending without a slash belongs to the last part. -/
theorem exists_splitSlashes_append {ending : List Char} (h : '/' ∉ ending) (cs name : List Char) :
    ∃ parts last, splitSlashes name (cs ++ ending) = parts ++ [last ++ ending] := by
  induction cs generalizing name with
  | nil => exact ⟨[], name.reverse, splitSlashes_of_not_mem h name⟩
  | cons c cs ih =>
    rw [List.cons_append, splitSlashes]
    split
    · obtain ⟨parts, last, he⟩ := ih []
      exact ⟨name.reverse :: parts, last, by rw [he, List.cons_append]⟩
    · exact ih (c :: name)

end Path

/-- Where the file of a class goes. -/
def Place.ofFile (dir name : String) : Place :=
  .ofPath ((Path.ofString dir).join (.ofString (name ++ ".kt")))

theorem SourceFile.ofPath_pathIn (dir : String) (f : SourceFile) :
    .ofPath (f.pathIn (.ofString dir)) = Place.ofFile dir f.name := rfl

namespace Place

/-- The last part of a file's path leads down. -/
theorem exists_parts_file (name : String) :
    ∃ parts last, (Path.ofString (name ++ ".kt")).parts = parts ++ [last] ∧ LeadsDown last := by
  have hending : '/' ∉ ".kt".toList := by decide
  obtain ⟨parts, last, he⟩ := exists_splitSlashes_append hending name.toList []
  refine ⟨parts.map String.ofList, String.ofList (last ++ ".kt".toList), ?_, ?_⟩
  · rw [Path.ofString, String.toList_append, he, List.map_append]
    rfl
  · apply leadsDown_of_length
    rw [String.length_ofList, List.length_append]
    exact Nat.lt_of_lt_of_le (by decide) (Nat.le_add_left _ _)

theorem keepsBelow_concat {last : String} (h : LeadsDown last) (parts : List String)
    (depth : Nat) : keepsBelow depth (parts ++ [last]) = keepsBelow depth parts := by
  induction parts generalizing depth with
  | nil => simp [keepsBelow, h.1, h.2.1, h.2.2]
  | cons name parts ih => rw [List.cons_append, keepsBelow, keepsBelow, ih, ih, ih]

theorem under_of_descends (dir : String) {name : String}
    (h : (Path.ofString (name ++ ".kt")).descends = true) :
    (ofFile dir name).Under (.ofPath (.ofString dir)) := by
  obtain ⟨parts, last, hparts, hlast⟩ := exists_parts_file name
  rw [descends, hparts, keepsBelow_concat hlast] at h
  obtain ⟨hrel, hkeeps⟩ := Bool.and_eq_true_iff.mp h
  have hrel : (Path.ofString (name ++ ".kt")).absolute = false := by simpa using hrel
  have hne : (Path.ofString (name ++ ".kt")).parts ≠ [] := by simp [hparts]
  have hempty : ".." ∉ ([] : List String) := List.not_mem_nil
  obtain ⟨way, hway, hfold⟩ := exists_down_of_keepsBelow (.ofPath (.ofString dir)) hempty hkeeps
  have hplace : ofFile dir name = (ofPath (.ofString dir)).down (way ++ [last]) := by
    rw [ofFile, ofPath_join hrel hne, hparts, List.foldl_append]
    rw [down_nil] at hfold
    rw [hfold, List.foldl_cons, List.foldl_nil, step_name _ _ hlast]
  rw [hplace]
  exact ⟨rfl, way ++ [last], by simp, by simpa [hway] using Ne.symm hlast.2.2, rfl⟩

/-- A folder that no part of a way speaks of: its name is longer than all of them. -/
theorem exists_folder_not_mem (parts : List String) :
    ∃ dir : String, (Path.ofString dir).parts = [dir] ∧ dir ∉ parts ∧ LeadsDown dir := by
  obtain ⟨n, hn⟩ : ∃ n, ∀ p ∈ parts, p.length < n := by
    induction parts with
    | nil => exact ⟨0, by simp⟩
    | cons p parts ih =>
      obtain ⟨n, hn⟩ := ih
      refine ⟨max n (p.length + 1), fun q hq => ?_⟩
      rcases List.mem_cons.mp hq with rfl | hq
      · omega
      · have := hn q hq
        omega
  have hlength : (String.ofList (List.replicate (n + 3) 'a')).length = n + 3 := by simp
  refine ⟨String.ofList (List.replicate (n + 3) 'a'), ?_, fun hm => ?_, ?_⟩
  · rw [Path.ofString, String.toList_ofList, splitSlashes_of_not_mem (by simp)]
    rfl
  · have := hn _ hm
    omega
  · exact leadsDown_of_length (by omega)

theorem descends_of_under {name : String}
    (h : ∀ dir, (ofFile dir name).Under (.ofPath (.ofString dir))) :
    (Path.ofString (name ++ ".kt")).descends = true := by
  obtain ⟨parts, last, hparts, -⟩ := exists_parts_file name
  have hne : (Path.ofString (name ++ ".kt")).parts ≠ [] := by simp [hparts]
  have hrel : (Path.ofString (name ++ ".kt")).absolute = false := by
    by_contra habs
    rw [Bool.not_eq_false] at habs
    have hhere := (h ".").1
    rw [ofFile, join, if_pos habs, ofPath, absolute_foldl_step, ofPath, absolute_foldl_step] at hhere
    rw [start, habs] at hhere
    cases hhere
  rw [descends, hrel, Bool.not_false, Bool.true_and]
  by_contra hclimbs
  rw [Bool.not_eq_true] at hclimbs
  obtain ⟨dir, hdir, hmem, hdown⟩ := exists_folder_not_mem (Path.ofString (name ++ ".kt")).parts
  have hfolder : ofPath (.ofString dir) = down ⟨false, [dir]⟩ [] := by
    have hstart : (Path.ofString dir).absolute = false := by simp [Path.absolute, hdir]
    rw [ofPath, hdir, hstart]
    exact step_name (start false) [] hdown
  have hout : dir ∉ ((Path.ofString (name ++ ".kt")).parts.foldl step (down ⟨false, [dir]⟩ [])).parts :=
    not_mem_of_not_keepsBelow hdown.2.2 List.not_mem_nil List.not_mem_nil hmem hclimbs
  obtain ⟨-, way, -, -, hplace⟩ := h dir
  rw [ofFile, ofPath_join hrel hne, hfolder] at hplace
  rw [hplace] at hout
  simp [down] at hout

/-- The files that lie under every folder are those whose names lead down. -/
theorem under_iff_descends (name : String) :
    (∀ dir, (ofFile dir name).Under (.ofPath (.ofString dir))) ↔
      (Path.ofString (name ++ ".kt")).descends = true :=
  ⟨descends_of_under, fun h dir => under_of_descends dir h⟩

end Place

namespace FileTree

theorem makeFolders_spec {names : List String} {t t' : FileTree} {p q : Place}
    (h : t.makeFolders p names = some (t', q)) :
    t'.files = t.files ∧ q = names.foldl Place.step p := by
  induction names generalizing p t with
  | nil =>
    obtain ⟨rfl, rfl⟩ := Prod.mk.inj (Option.some.inj h)
    exact ⟨rfl, rfl⟩
  | cons name names ih =>
    rw [makeFolders] at h
    split at h
    · cases h
    · split at h
      · exact ih h
      · obtain ⟨hfiles, hplace⟩ := ih h
        exact ⟨hfiles, hplace⟩

theorem lookup_put_of_ne (t : FileTree) (text : String) {p q : Place} (h : q ≠ p) :
    (t.put p text).files.lookup q = t.files.lookup q := by
  rw [put]
  split
  · rfl
  · have hfilter := Table.find?_filter_ne t.files p q
    rw [Table.find?, Table.find?, if_neg h] at hfilter
    rw [List.lookup_cons, beq_false_of_ne h]
    exact hfilter

theorem isFile_put_self (t : FileTree) (p : Place) (text : String) :
    (t.put p text).isFile p = true := by
  rw [isFile, text?]
  split
  · rfl
  · next hp => simp [put, hp]

/-- Writing may change the files at some places only, and no file goes away. -/
structure ChangedAt (places : List Place) (t t' : FileTree) : Prop where
  mem : ∀ p, t'.files.lookup p ≠ t.files.lookup p → p ∈ places
  keep : ∀ p, t.isFile p = true → t'.isFile p = true

theorem ChangedAt.of_files_eq {t t' : FileTree} (h : t'.files = t.files) (places : List Place) :
    ChangedAt places t t' where
  mem p hp := absurd (by rw [h]) hp
  keep p hp := by
    rw [isFile, text?] at hp ⊢
    rwa [h]

theorem ChangedAt.trans {places more : List Place} {t t' t'' : FileTree}
    (h : ChangedAt places t t') (h' : ChangedAt more t' t'') :
    ChangedAt (places ++ more) t t'' where
  mem p hp := by
    rw [List.mem_append]
    by_cases hfirst : t'.files.lookup p = t.files.lookup p
    · exact .inr (h'.mem p (by rwa [hfirst]))
    · exact .inl (h.mem p hfirst)
  keep p hp := h'.keep p (h.keep p hp)

theorem changedAt_put (t : FileTree) (p : Place) (text : String) :
    ChangedAt [p] t (t.put p text) where
  mem q hq := by
    by_contra hne
    rw [List.mem_singleton] at hne
    exact hq (t.lookup_put_of_ne text hne)
  keep q hq := by
    by_cases hne : q = p
    · rw [hne]
      exact t.isFile_put_self p text
    · rw [isFile, text?, lookup_put_of_ne t text hne]
      exact hq

/-- A path is written at the place where it leads, or not at all. -/
theorem changedAt_write (t : FileTree) (path : Path) (text : String) :
    ChangedAt [.ofPath path] t (t.write path text).1 ∧
      ((t.write path text).2 = true → (t.write path text).1.isFile (.ofPath path) = true) := by
  rw [write]
  split
  · next name hname _ =>
    split
    · exact ⟨.of_files_eq rfl _, fun h => by cases h⟩
    · next t' folder hmade =>
      obtain ⟨hfiles, rfl⟩ := makeFolders_spec hmade
      have hfolders := ChangedAt.of_files_eq hfiles []
      obtain ⟨parts, hparts⟩ := List.getLast?_eq_some_iff.mp hname
      have hplace : (path.parent.parts.foldl Place.step (.start path.absolute)).step name =
          .ofPath path := by
        rw [Place.ofPath, Path.parent, hparts, List.dropLast_concat, List.foldl_append]
        rfl
      dsimp only
      rw [hplace]
      split
      · exact ⟨.of_files_eq hfiles _, fun h => by cases h⟩
      · exact ⟨hfolders.trans (t'.changedAt_put _ text), fun _ => t'.isFile_put_self _ text⟩
  · exact ⟨.of_files_eq rfl _, fun h => by cases h⟩

theorem changedAt_writeAll (dir : Path) (files : List SourceFile) (t : FileTree) :
    ChangedAt (files.map fun f => .ofPath (f.pathIn dir)) t (t.writeAll dir files).1 ∧
      ((t.writeAll dir files).2 = none →
        ∀ f ∈ files, (t.writeAll dir files).1.isFile (.ofPath (f.pathIn dir)) = true) := by
  induction files generalizing t with
  | nil => exact ⟨.of_files_eq rfl _, fun _ f hf => by cases hf⟩
  | cons f files ih =>
    obtain ⟨hwrite, hthere⟩ := t.changedAt_write (f.pathIn dir) f.text
    rw [writeAll]
    split
    · next t' he =>
      rw [he] at hwrite hthere
      obtain ⟨hrest, hall⟩ := ih t'
      refine ⟨hwrite.trans hrest, fun hnone g hg => ?_⟩
      rcases List.mem_cons.mp hg with rfl | hg
      · exact hrest.keep _ (hthere rfl)
      · exact hall hnone g hg
    · next t' he =>
      rw [he] at hwrite
      have hrest : ChangedAt _ t' t' := .of_files_eq rfl (files.map fun f => .ofPath (f.pathIn dir))
      exact ⟨hwrite.trans hrest, fun h => by cases h⟩

end FileTree

theorem Workshop.names_writeFiles {σ : Type} (k : Kit σ) (ts : List ClassTree) (shop : Workshop σ) :
    (shop.writeFiles k ts).1.map (·.name) = ts.map (·.root.name) := by
  induction ts generalizing shop with
  | nil => rfl
  | cons t ts ih =>
    rw [writeFiles, List.map_cons, List.map_cons, ih]
    rfl

namespace Session

variable {σ : Type} {s : Session σ}

/-- The roots of the files that are asked for: all of them, or the one over a class. -/
def Asked (s : Session σ) (className : Option String) (root : String) : Prop :=
  match className with
  | none => root ∈ s.forest.roots
  | some name => s.forest.owner? name = some root

theorem Asked.mem_names {className : Option String} {root : String}
    (h : s.Asked className root) : root ∈ s.forest.names := by
  rw [Forest.mem_names]
  cases className with
  | none =>
    obtain ⟨t, ht, rfl⟩ := List.mem_map.mp h
    exact ⟨t, ht, t.root_name_mem⟩
  | some name =>
    obtain ⟨t, ht, rfl⟩ := Option.map_eq_some_iff.mp h
    exact ⟨t, List.mem_of_find?_eq_some ht, t.root_name_mem⟩

theorem name_of_write {s' : Session σ} {name : String} {file : SourceFile}
    (h : s.write name = .ok (file, s')) : s.forest.owner? name = some file.name := by
  rw [write] at h
  split at h
  · cases h
  · next root hroot =>
    split at h
    · cases h
    · next t ht =>
      rw [Forest.tree?] at ht
      have hname := List.find?_some ht
      cases h
      rw [hroot, ← eq_of_beq hname]

end Session

/-- A run of two steps succeeds when both do. -/
theorem exists_ok_of_bind {ε α β : Type} {x : Except ε α} {f : α → Except ε β} {b : β}
    (h : (x >>= f) = .ok b) : ∃ a, x = .ok a ∧ f a = .ok b := by
  cases x with
  | error e => cases h
  | ok a => exact ⟨a, rfl, h⟩

namespace Request

theorem mem_sketchFiles {s s' : Session Unit} {className : Option String} {files : List SourceFile}
    (h : sketchFiles s className = .ok (files, s')) (root : String) :
    root ∈ files.map (·.name) ↔ s.Asked className root := by
  cases className with
  | none =>
    have hfiles : (s.shop.writeFiles s.kit s.forest.trees).1 = files :=
      congrArg Prod.fst (Except.ok.inj h)
    rw [← hfiles, Workshop.names_writeFiles]
    rfl
  | some name =>
    obtain ⟨⟨file, after⟩, hwrite, hfile⟩ := exists_ok_of_bind h
    have hfiles : [file] = files := congrArg Prod.fst (Except.ok.inj hfile)
    rw [← hfiles, Session.Asked, Session.name_of_write hwrite]
    simp [eq_comm]

theorem session_eq_start {read : Reading} {i : Inputs} {bodies : Option String} {mapping : Bool}
    {s : Session Unit} (h : session read i bodies mapping = .ok s) :
    ∃ library kit, readClasses read i = .ok library ∧
      s = Session.start kit library () (policy i) := by
  obtain ⟨options, _, h⟩ := exists_ok_of_bind h
  obtain ⟨bodies, _, h⟩ := exists_ok_of_bind h
  obtain ⟨library, hlibrary, h⟩ := exists_ok_of_bind h
  exact ⟨library, _, hlibrary, (Except.ok.inj h).symm⟩

/-- The files of a run belong to own classes of what was read. -/
theorem exists_own_class {read : Reading} {i : Inputs} {bodies : Option String} {mapping : Bool}
    {s : Session Unit} (h : session read i bodies mapping = .ok s) {className : Option String}
    {root : String} (hroot : s.Asked className root) :
    ∃ library, readClasses read i = .ok library ∧ ∃ c ∈ library.ownClasses, c.name = root := by
  obtain ⟨library, kit, hread, rfl⟩ := session_eq_start h
  have hmem := hroot.mem_names
  rw [Session.forest_start] at hmem
  have hground := (Forest.names_build library kit.options (policy i)).mem_iff.mp hmem
  obtain ⟨c, hc, hname⟩ := List.mem_map.mp hground
  exact ⟨library, hread, c, List.mem_of_mem_filter hc, hname⟩

theorem runSketch_files {read : Reading} {r : SketchRequest} {dir : String} {s s' : Session Unit}
    {files : List SourceFile} (hout : r.out = some dir)
    (hsession : session read r.inputs r.bodies r.mapping = .ok s)
    (hfiles : sketchFiles s r.className = .ok (files, s')) :
    runSketch read r = .ok (.files (.ofString dir) files, s'.shop.warnings) := by
  rw [runSketch, hsession]
  change (sketchFiles s r.className >>= fun x => _) = _
  rw [hfiles]
  simp [bind, Except.bind, hout, pure, Except.pure]

end Request

theorem Failure.code_ne_zero (f : Failure) : f.status.code ≠ 0 := by
  cases f.status <;> decide

namespace FileTree

variable {t : FileTree} {args : List String} {r : SketchRequest} {log : Logging} {dir : String}

/-- A run whose input cannot be used changes nothing. -/
theorem command_of_error (hparse : Request.parse args = .ok (.sketch r, log)) {f : Failure}
    (h : Request.runSketch t.reading r = .error f) :
    (t.command args).tree = t ∧ (t.command args).exit ≠ 0 := by
  have hrun : (Request.sketch r).run t.reading = .error f := h
  rw [command, hparse]
  dsimp only
  rw [hrun]
  exact ⟨rfl, f.code_ne_zero⟩

theorem command_of_files (hparse : Request.parse args = .ok (.sketch r, log)) {dir : Path}
    {files : List SourceFile} {warnings : List Warning}
    (h : Request.runSketch t.reading r = .ok (.files dir files, warnings)) :
    (t.command args).tree = (t.writeAll dir files).1 ∧
      ((t.command args).exit = 0 → (t.writeAll dir files).2 = none) := by
  have hrun : (Request.sketch r).run t.reading = .ok (.files dir files, warnings) := h
  rw [command, hparse]
  dsimp only
  rw [hrun]
  dsimp only
  split
  · next t' he => exact ⟨by rw [he], fun _ => by rw [he]⟩
  · next t' f he => exact ⟨by rw [he], fun h0 => absurd h0 f.code_ne_zero⟩

/-- The files that a run changes are those of own classes, each at the place to which its class's
name leads from the output folder. A run that ends well has written the file of every root that was
asked for. Such a place is under the folder if the name leads down, and only names that do so keep
to every folder. -/
theorem files_follow_names (hparse : Request.parse args = .ok (.sketch r, log))
    (hout : r.out = some dir) :
    let after := t.command args
    (∀ p, after.tree.files.lookup p ≠ t.files.lookup p →
      ∃ library, Request.readClasses t.reading r.inputs = .ok library ∧
        ∃ c ∈ library.ownClasses, p = Place.ofFile dir c.name ∧
          ((Path.ofString (c.name ++ ".kt")).descends = true →
            p.Under (.ofPath (.ofString dir)))) ∧
    (after.exit = 0 → ∃ s, Request.session t.reading r.inputs r.bodies r.mapping = .ok s ∧
      ∀ root, s.Asked r.className root → after.tree.isFile (Place.ofFile dir root) = true) ∧
    ∀ name, (∀ other, (Place.ofFile other name).Under (.ofPath (.ofString other))) ↔
      (Path.ofString (name ++ ".kt")).descends = true := by
  intro after
  refine and_assoc.mp ⟨?_, Place.under_iff_descends⟩
  cases hrun : Request.runSketch t.reading r with
  | error f =>
    obtain ⟨htree, hexit⟩ := command_of_error hparse hrun
    refine ⟨fun p hp => absurd ?_ hp, fun h0 => absurd h0 hexit⟩
    rw [htree]
  | ok out =>
    obtain ⟨s, hsession, hrest⟩ := exists_ok_of_bind hrun
    obtain ⟨⟨files, s'⟩, hfiles, -⟩ := exists_ok_of_bind hrest
    obtain ⟨htree, hexit⟩ := command_of_files hparse (Request.runSketch_files hout hsession hfiles)
    obtain ⟨hchanged, hthere⟩ := t.changedAt_writeAll (.ofString dir) files
    refine ⟨fun p hp => ?_, fun h0 => ⟨s, hsession, fun root hroot => ?_⟩⟩
    · rw [htree] at hp
      obtain ⟨f, hf, rfl⟩ := List.mem_map.mp (hchanged.mem p hp)
      have hasked := (Request.mem_sketchFiles hfiles f.name).mp (List.mem_map_of_mem hf)
      obtain ⟨library, hread, c, hc, hname⟩ := Request.exists_own_class hsession hasked
      rw [f.ofPath_pathIn, ← hname]
      exact ⟨library, hread, c, hc, rfl, Place.under_of_descends dir⟩
    · obtain ⟨f, hf, rfl⟩ := List.mem_map.mp ((Request.mem_sketchFiles hfiles root).mpr hroot)
      rw [htree, ← f.ofPath_pathIn]
      exact hthere (hexit h0) f hf

/-- A name that leads down takes its file under the folder, though it goes up on the way. -/
theorem files_follow_names_detour :
    let t : FileTree := .ofList [("c.json", "[\x7b\"name\":\"a/../B\",\"access\":1\x7d]")]
    let args := ["emit", "--classes", "c.json", "--out", "out"]
    let r : SketchRequest := { inputs := { classes := "c.json" }, out := some "out" }
    Request.parse args = .ok (.sketch r, {}) ∧
      ((t.command args).exit = 0 ∧ t.isFile ⟨false, ["out", "B.kt"]⟩ = false ∧
        (t.command args).tree.isFile ⟨false, ["out", "B.kt"]⟩ = true) ∧
      ∀ p, (t.command args).tree.files.lookup p ≠ t.files.lookup p →
        ∃ library, Request.readClasses t.reading r.inputs = .ok library ∧
          ∃ c ∈ library.ownClasses, p = Place.ofFile "out" c.name := by
  refine ⟨rfl, by decide +kernel, ?_⟩
  generalize FileTree.ofList _ = t
  intro p hp
  obtain ⟨library, hread, c, hc, hplace, -⟩ := (files_follow_names rfl rfl).1 p hp
  exact ⟨library, hread, c, hc, hplace⟩

/-- A class can put its file beside the output folder. -/
theorem climbing_name_leaves_folder :
    let t : FileTree := .ofList [("c.json", "[\x7b\"name\":\"../x\",\"access\":1\x7d]")]
    let after := t.command ["emit", "--classes", "c.json", "--out", "out"]
    let p : Place := ⟨false, ["x.kt"]⟩
    (after.exit = 0 ∧ t.files.lookup p = none ∧
      after.tree.files.lookup p = some "package ..\n\nopen class x \x7b\n\x7d\n") ∧
      ¬ p.Under (.ofPath (.ofString "out")) := by
  refine ⟨by decide +kernel, ?_⟩
  rintro ⟨-, way, -, -, hparts⟩
  have hfolder : (Place.ofPath (.ofString "out")).parts = ["out"] := by decide
  rw [hfolder] at hparts
  simp at hparts

end FileTree

end ClassSketch
