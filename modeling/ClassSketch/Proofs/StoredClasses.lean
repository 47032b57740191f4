import ClassSketch.Class.Codec
import ClassSketch.Proofs.Tables

/-! Storing and loading declared classes. Whatever a class declares comes back when its stored form
is loaded: flags that are written only when they are set, parts that are null when they are absent,
words with bits that have no meaning, names that stand for a choice. Only floating constants are
left out, since their decimal need not be the constant itself. No field of a structure may be
written twice; of an entry that is written twice the last one counts. -/

namespace ClassSketch

namespace Json

theorem list?_map {α : Type} {load? : Json → Option α} {store : α → Json} {xs : List α}
    (h : ∀ x ∈ xs, load? (store x) = some x) : list? load? (.array (xs.map store)) = some xs := by
  rw [list?]
  induction xs with
  | nil => rfl
  | cons x xs ih =>
    have hx := h x List.mem_cons_self
    have hxs := ih fun y hy => h y (List.mem_cons_of_mem _ hy)
    rw [List.map_cons, List.mapM_cons, hx, hxs]
    rfl

@[simp] theorem texts?_texts (xs : List String) : texts? (texts xs) = some xs :=
  list?_map fun _ _ => rfl

/-- What can be loaded is not null, so a part that is there is never taken for an absent one. -/
theorem optional?_ofOption {α : Type} {load? : Json → Option α} {store : α → Json} {o : Option α}
    (hnull : load? .null = none) (h : ∀ a ∈ o, load? (store a) = some a) :
    optional? load? (.ofOption store o) = some o := by
  cases o with
  | none => rfl
  | some a =>
    have ha : load? (store a) = some a := h a rfl
    have hne : store a ≠ .null := by
      intro he
      rw [he, hnull] at ha
      cases ha
    rw [ofOption, optional?.eq_2 _ _ hne, ha]
    rfl

@[simp] theorem optional?_text (o : Option String) :
    optional? text? (.ofOption .text o) = some o :=
  optional?_ofOption rfl fun _ _ => rfl

@[simp] theorem optional?_texts (o : Option (List String)) :
    optional? texts? (.ofOption .texts o) = some o :=
  optional?_ofOption rfl fun xs _ => texts?_texts xs

theorem optional?_list {α : Type} {load? : Json → Option α} {store : α → Json}
    (h : ∀ x, load? (store x) = some x) (o : Option (List α)) :
    optional? (list? load?) (.ofOption (fun xs => .array (xs.map store)) o) = some o :=
  optional?_ofOption rfl fun _ _ => list?_map fun x _ => h x

theorem natBelow?_ofNat {n limit : Nat} (h : n < limit) : natBelow? limit (.ofNat n) = some n :=
  if_pos h

@[simp] theorem members?_object {keys : List String} {ms : Members}
    (h : (ms.map (·.1)).Nodup) : members? keys (.object ms) = some ms :=
  if_pos (h.sublist List.filter_sublist)

/-- For loading many members: they are put in place before the rest is simplified. -/
theorem members?_object_bind {α : Type} {keys : List String} {ms : Members}
    (h : (ms.map (·.1)).Nodup) (f : Members → Option α) :
    (members? keys (.object ms) >>= f) = f ms := by
  rw [members?_object h]
  rfl

theorem members?_of_repeated {keys : List String} {ms : Members} {key : String}
    (hkey : key ∈ keys) (h : 1 < (ms.map (·.1)).count key) :
    members? keys (.object ms) = none := by
  refine if_neg fun honce => ?_
  have hcount := List.nodup_iff_count.mp honce key
  rw [List.count_filter (by simpa using hkey)] at hcount
  omega

/-- What is found under a key is what the last member with the key loads as. -/
theorem find?_of_entries? {α : Type} {value? : Json → Option α} {ms : Members}
    {t : Table String α} (h : entries? value? (.object ms) = some t) (key : String) :
    (t.find? key).map some = (ms.reverse.lookup key).map value? := by
  obtain ⟨es, hes, ⟨⟩⟩ := Option.bind_eq_some_iff.mp h
  clear h
  rw [Table.find?_ofEntries]
  induction ms generalizing es with
  | nil =>
    cases hes
    rfl
  | cons m ms ih =>
    simp only [List.mapM_cons, Option.bind_eq_bind, Option.bind_eq_some_iff,
      Option.map_eq_some_iff] at hes
    obtain ⟨_, ⟨a, ha, rfl⟩, es, hes, ⟨⟩⟩ := hes
    rw [List.reverse_cons, List.reverse_cons, List.lookup_append, List.lookup_append, Option.map_or,
      Option.map_or, ih es hes, List.lookup_cons, List.lookup_cons]
    by_cases hkey : key = m.1
    · simp [hkey, ha]
    · simp [beq_false_of_ne hkey]

/-- A flag takes no key but its own. -/
theorem map_flag_sublist (key : String) (b : Bool) :
    ((flag key b).map (·.1)).Sublist [key] := by
  cases b <;> simp [flag]

theorem nodup_of_flags {before after : Members} {k l : String} {b c : Bool}
    (h : (before.map (·.1) ++ [k] ++ [l] ++ after.map (·.1)).Nodup) :
    ((before ++ flag k b ++ flag l c ++ after).map (·.1)).Nodup := by
  rw [List.map_append, List.map_append, List.map_append]
  refine h.sublist (List.Sublist.append_right ?_ _)
  exact ((map_flag_sublist k b).append_left _).append (map_flag_sublist l c)

@[simp] theorem text?_text (s : String) : text? (.text s) = some s := rfl

@[simp] theorem choice?_text (s : String) : choice? (.text s) = some s := rfl

@[simp] theorem bool?_bool (b : Bool) : bool? (.bool b) = some b := rfl

@[simp] theorem ite_some_bool (b : Bool) :
    (if b = true then some true else some false) = some b := by
  cases b <;> rfl

namespace Members

variable {α : Type} (k key : String) (j : Json) (b : Bool) (ms : Members) (default : α)
  (load? : Json → Option α)

@[simp] theorem find?_cons :
    find? ((k, j) :: ms) key = if key = k then some j else find? ms key := by
  by_cases h : key = k
  · simp [find?, h]
  · rw [find?, List.lookup_cons, beq_false_of_ne h, if_neg h, find?]

@[simp] theorem required?_cons : required? ((k, j) :: ms) key load? =
    if key = k then load? j else required? ms key load? := by
  rw [required?, find?_cons]
  split <;> rfl

@[simp] theorem defaulted?_nil : defaulted? [] key default load? = some default := rfl

@[simp] theorem defaulted?_cons : defaulted? ((k, j) :: ms) key default load? =
    if key = k then load? j else defaulted? ms key default load? := by
  by_cases h : key = k <;> simp [defaulted?, h]

/-- A flag that is not set is not there, and then the default stands for it. -/
@[simp] theorem defaulted?_flag : defaulted? (flag k b ++ ms) key default load? =
    if key = k ∧ b = true then load? (.bool true) else defaulted? ms key default load? := by
  cases b <;> simp [flag]

@[simp] theorem optional?_cons : optional? ((k, j) :: ms) key load? =
    if key = k then Json.optional? load? j else optional? ms key load? :=
  defaulted?_cons k key j ms none (Json.optional? load?)

end Members

end Json

open Json

namespace AccessFlags

@[simp] theorem load?_store (a : AccessFlags) : load? a.store = some a := by
  have hword : natBelow? 65536 (.ofNat a.toNat) = some a.toNat := natBelow?_ofNat a.bits.isLt
  rw [load?, store, hword, Option.map_some, ofNat, toNat, BitVec.ofNat_toNat, BitVec.setWidth_eq]

end AccessFlags

@[simp] theorem loadWord?_storeWord (w : UInt32) : loadWord? (storeWord w) = some w := by
  have hword : word32? (.ofNat w.toNat) = some w.toNat := natBelow?_ofNat w.toNat_lt
  rw [loadWord?, storeWord, hword, Option.map_some, UInt32.ofNat_toNat]

@[simp] theorem MetadataWord.load?_store (w : MetadataWord) : load? w.store = some w := by
  have hword : word32? (.ofNat w.bits.toNat) = some w.bits.toNat := natBelow?_ofNat w.bits.isLt
  rw [load?, store, hword, Option.map_some, BitVec.ofNat_toNat, BitVec.setWidth_eq]

@[simp] theorem MetadataKind.ofLabel?_label (k : MetadataKind) : ofLabel? k.label = some k := by
  cases k <;> decide

@[simp] theorem PropertyInfo.load?_store (p : PropertyInfo) : load? p.store = some p := by
  simp [load?, store]

@[simp] theorem FunctionInfo.load?_store (f : FunctionInfo) : load? f.store = some f := by
  simp [load?, store]

@[simp] theorem Metadata.load?_store (m : Metadata) : load? m.store = some m := by
  have hproperties := list?_map fun p (_ : p ∈ m.properties) => p.load?_store
  have hfunctions := list?_map fun f (_ : f ∈ m.functions) => f.load?_store
  rw [store, load?, members?_object_bind (by simp)]
  simp [hproperties, hfunctions]

@[simp] theorem NestingEntry.load?_store (e : NestingEntry) : load? e.store = some e := by
  simp [load?, store]

@[simp] theorem EnclosingSite.load?_store (e : EnclosingSite) : load? e.store = some e := by
  simp [load?, store]

@[simp] theorem RecordPart.load?_store (p : RecordPart) : load? p.store = some p := by
  simp [load?, store]

@[simp] theorem LineEntry.load?_store (e : LineEntry) : load? e.store = some e := by
  simp [load?, store]

/-- Every instruction has a name of its own, so the one that stands for all others is read for
itself only. -/
@[simp] theorem Opcode.ofLabel_label (o : Opcode) : ofLabel o.label = o := by
  cases o <;> decide

@[simp] theorem Instruction.load?_store (i : Instruction) : load? i.store = some i := by
  simp [load?, store]

/-- Floating constants are stored as a decimal. -/
def Constant.isFloating : Constant → Bool
  | float _ | double _ => true
  | int _ | long _ | text _ => false

theorem Constant.load?_store {k : Constant} (h : k.isFloating = false) :
    load? k.store = some k := by
  cases k with
  | int v =>
    have hrange : -2147483648 ≤ v.toInt ∧ v.toInt ≤ 2147483647 := ⟨v.le_toInt, v.toInt_le⟩
    simp [load?, store, intBetween?, hrange]
  | long v =>
    have hrange : -9223372036854775808 ≤ v.toInt ∧ v.toInt ≤ 9223372036854775807 :=
      ⟨v.le_toInt, v.toInt_le⟩
    simp [load?, store, intBetween?, hrange]
  | float v => cases h
  | double v => cases h
  | text s => simp [load?, store]

theorem FieldDecl.load?_store {f : FieldDecl} (h : ∀ k ∈ f.constant, k.isFloating = false) :
    load? f.store = some f := by
  have hconstant := optional?_ofOption rfl fun k hk => Constant.load?_store (h k hk)
  rw [store, load?, members?_object_bind (nodup_of_flags (by simp))]
  simp [hconstant]

@[simp] theorem MethodDecl.load?_store (m : MethodDecl) : load? m.store = some m := by
  have hcode := optional?_list Instruction.load?_store m.code
  have hlines := list?_map fun e (_ : e ∈ m.lineTable) => e.load?_store
  rw [store, load?, members?_object_bind (nodup_of_flags (by simp))]
  simp [hcode, hlines]

@[simp] theorem ModuleRequirement.load?_store (r : ModuleRequirement) :
    load? r.store = some r := by
  obtain ⟨module, transitive, compileOnly⟩ := r
  cases transitive <;> cases compileOnly <;> simp [load?, store, flag]

@[simp] theorem ModulePackage.load?_store (p : ModulePackage) : load? p.store = some p := by
  simp [load?, store]

@[simp] theorem ModuleService.load?_store (s : ModuleService) : load? s.store = some s := by
  simp [load?, store]

@[simp] theorem ModuleDecl.load?_store (m : ModuleDecl) : load? m.store = some m := by
  have hrequires := list?_map fun r (_ : r ∈ m.requires) => r.load?_store
  have hexports := list?_map fun p (_ : p ∈ m.exports) => p.load?_store
  have hopens := list?_map fun p (_ : p ∈ m.opens) => p.load?_store
  have hprovides := list?_map fun s (_ : s ∈ m.provides) => s.load?_store
  have honce : ∀ ms, m.store = .object ms → (ms.map (·.1)).Nodup := by
    rintro ms ⟨⟩
    cases m.isOpen <;> simp [flag]
  rw [store, load?, members?_object_bind (honce _ rfl)]
  simp [hrequires, hexports, hopens, hprovides]

namespace ClassDecl

/-- A class whose fields hold no floating constant comes back from its stored form, with all its
members, attributes and code. -/
theorem load?_store_of_exact (c : ClassDecl)
    (h : ∀ f ∈ c.fields, ∀ k ∈ f.constant, k.isFloating = false) : load? c.store = some c := by
  have hfields := list?_map fun f hf => FieldDecl.load?_store (h f hf)
  have hmethods := list?_map fun m (_ : m ∈ c.methods) => m.load?_store
  have hnesting := optional?_list NestingEntry.load?_store c.nesting
  have henclosing := optional?_ofOption rfl fun e (_ : e ∈ c.enclosing) => e.load?_store
  have hparts := optional?_list RecordPart.load?_store c.recordParts
  have hmodule := optional?_ofOption rfl fun m (_ : m ∈ c.module) => m.load?_store
  have hmetadata := optional?_ofOption rfl fun m (_ : m ∈ c.metadata) => m.load?_store
  rw [store, load?, members?_object_bind (nodup_of_flags (by simp))]
  simp [hfields, hmethods, hnesting, henclosing, hparts, hmodule, hmetadata]

/-- A class with all bits set, a module, metadata, code, constants at both ends of their range, and
flags that are the opposite of what an absent one stands for. -/
theorem load?_store_full :
    let c : ClassDecl :=
      { name := "a/B", access := ⟨0xffff#16⟩, superclass := some "a/A", interfaces := ["a/I"],
        fields :=
          [{ name := "x", descriptor := "J", constant := some (.long Int64.minValue),
             synthetic := true },
           { name := "y", descriptor := "I", constant := some (.int Int32.maxValue),
             deprecated := true, annotations := ["@A"] },
           { name := "z", descriptor := "Ljava/lang/String;", constant := some (.text "") }],
        methods :=
          [{ name := "m", descriptor := "()V", exceptions := ["a/E"],
             code := some [⟨.other, 0, none⟩, ⟨.new, 4294967295, some "a/C"⟩],
             lineTable := [⟨0, 7⟩], parameterNames := some [], annotationDefault := some "1" }],
        nesting := some [⟨"a/B$C", some "a/B", some "C", ⟨0x0020#16⟩⟩, ⟨"a/B$1", none, none, {}⟩],
        enclosing := some ⟨"a/B", some "m", none⟩, signature := some "Ljava/lang/Object;",
        recordParts := some [⟨"x", "J", none⟩],
        module := some
          { name := "m", isOpen := true, requires := [⟨"java.base", false, true⟩],
            exports := [⟨"p", ["q"]⟩], uses := ["S"], provides := [⟨"S", []⟩] },
        metadata := some
          ⟨.multiFilePart, ⟨0xffffffff#32⟩, [⟨"p", ⟨1#32⟩, some "f"⟩], [⟨"g", {}, none, some "I"⟩]⟩,
        deprecated := true, annotations := [""], own := false }
    (∀ f ∈ c.fields, ∀ k ∈ f.constant, k.isFloating = false) ∧ load? c.store = some c := by
  intro c
  have hexact : ∀ f ∈ c.fields, ∀ k ∈ f.constant, k.isFloating = false := by
    intro f hf k hk
    simp only [c, List.mem_cons, List.not_mem_nil, or_false] at hf
    rcases hf with rfl | rfl | rfl <;> cases hk <;> rfl
  exact ⟨hexact, load?_store_of_exact c hexact⟩

end ClassDecl

end ClassSketch
