import Tickwise.Proofs.Codec.Planting
set_option autoImplicit false

/-!
# Canonical encoding

Nothing is read that would be written in another way: what a reader takes from the front of its input is
just what the writer of its result writes. So no two byte strings stand for one type, or for variables that
hold the same.
-/
namespace Tickwise

namespace Written

theorem toExcept_ofBytes (bytes : List UInt8) : (ofBytes bytes).toExcept = .ok bytes := rfl

/-- Entries that are written alike one by one are written alike together. -/
theorem each_congr {α β : Type} {write : α → Written} {write' : β → Written} {as : List α} {bs : List β}
    (same : as.Forall₂ (fun a b => write a = write' b) bs) : each write as = each write' bs := by
  induction same with
  | nil => rfl
  | cons first _ ih => rw [each, each, first, ih]

end Written

namespace Codec

/-- Where the reader accepts, the bytes that it takes are written in the way that `Q` says of the result. -/
def Rewrites {α : Type} (read : Reader α) (Q : α → Written → Prop) : Prop :=
  ∀ ⦃input a rest⦄, read.run input = .ok (a, rest) → ∃ bytes, bytes ++ rest = input ∧ Q a (.ofBytes bytes)

namespace Rewrites

variable {α β : Type} {read : Reader α} {P P' : α → Written → Prop} {Q : β → Written → Prop}

theorem pure {a : α} (h : P a .nothing) : Rewrites (pure a) P := by
  intro input a' rest run
  cases run
  exact ⟨[], rfl, h⟩

theorem throw (e : CodecError) (P : α → Written → Prop) : Rewrites (throw e) P := by
  intro input a rest run
  cases run

theorem bind {f : α → Reader β} (first : Rewrites read P)
    (second : ∀ a w, P a w → Rewrites (f a) fun b more => Q b (w >> more)) : Rewrites (read >>= f) Q := by
  intro input b rest run
  rw [StateT.run_bind] at run
  cases taken : read.run input with
  | error e =>
    rw [taken] at run
    cases run
  | ok result =>
    obtain ⟨a, middle⟩ := result
    rw [taken] at run
    obtain ⟨front, rfl, ha⟩ := first taken
    obtain ⟨back, rfl, hb⟩ := second a _ ha run
    exact ⟨front ++ back, List.append_assoc .., hb⟩

theorem imp (h : Rewrites read P) (weaker : ∀ a w, P a w → P' a w) : Rewrites read P' := by
  intro input a rest run
  obtain ⟨bytes, split, ha⟩ := h run
  exact ⟨bytes, split, weaker a _ ha⟩

theorem map {f : α → β} (h : Rewrites read P) (result : ∀ a w, P a w → Q (f a) w) : Rewrites (f <$> read) Q := by
  rw [map_eq_pure_bind]
  refine h.bind fun a w ha => .pure ?_
  rw [Written.andThen_nothing]
  exact result a w ha

theorem ite {c : Prop} [Decidable c] {other : Reader α} (yes : c → Rewrites read P)
    (no : ¬ c → Rewrites other P) : Rewrites (if c then read else other) P := by
  split
  · next holds => exact yes holds
  · next fails => exact no fails

end Rewrites

theorem ofLittleEndian_lt (bytes : List UInt8) : ofLittleEndian bytes < 256 ^ bytes.length := by
  induction bytes with
  | nil => decide
  | cons b bytes ih =>
    have digit : b.toNat < 256 := b.toNat_lt
    rw [ofLittleEndian, List.length_cons, Nat.pow_succ]
    omega

theorem littleEndian_ofLittleEndian (bytes : List UInt8) :
    littleEndian bytes.length (ofLittleEndian bytes) = bytes := by
  induction bytes with
  | nil => rfl
  | cons b bytes ih =>
    have digit : b.toNat < 256 := b.toNat_lt
    have lowest : UInt8.ofNat (b.toNat + 256 * ofLittleEndian bytes) = b := by
      apply UInt8.toNat_inj.1
      rw [UInt8.toNat_ofNat']
      omega
    have others : (b.toNat + 256 * ofLittleEndian bytes) / 256 = ofLittleEndian bytes := by omega
    rw [ofLittleEndian, List.length_cons, littleEndian, lowest, others, ih]

theorem rewrites_take (count : Nat) :
    Rewrites (take count) fun bytes w => bytes.length = count ∧ .ofBytes bytes = w := by
  intro input bytes rest run
  change take count input = _ at run
  simp only [take] at run
  split at run
  · cases run
  · next enough =>
    cases run
    refine ⟨input.take count, List.take_append_drop .., ?_, rfl⟩
    rw [List.length_take] at enough ⊢
    omega

theorem rewrites_number (count : Nat) :
    Rewrites (readNumber count) fun n w => n < 256 ^ count ∧ number count n = w := by
  refine (rewrites_take count).map fun bytes w => ?_
  rintro ⟨rfl, rfl⟩
  have small := ofLittleEndian_lt bytes
  refine ⟨small, ?_⟩
  have range : 1 <<< (8 * bytes.length) = 256 ^ bytes.length := by
    rw [Nat.shiftLeft_eq, Nat.one_mul, Nat.pow_mul]
  rw [number, range, if_pos small, littleEndian_ofLittleEndian]

theorem rewrites_word : Rewrites readWord fun n w => word n = w :=
  (rewrites_number 2).imp fun _ _ h => h.2

theorem rewrites_ulong : Rewrites readULong fun n w => (UInt32.ofNat n).toNat = n ∧ ulong n = w :=
  (rewrites_number 4).imp fun _ _ h => ⟨Nat.mod_eq_of_lt h.1, h.2⟩

theorem rewrites_long : Rewrites readLong fun i w => long i = w := by
  refine rewrites_ulong.bind fun n w h => .pure ?_
  obtain ⟨range, rfl⟩ := h
  rw [Written.andThen_nothing, long, UInt32.toUInt32_toInt32, range]

theorem rewrites_bool : Rewrites readBool fun b w => bool b = w := by
  refine rewrites_word.bind fun n w => ?_
  rintro rfl
  split
  · exact .pure (Written.andThen_nothing _).symm
  · exact .pure (Written.andThen_nothing _).symm
  · exact .throw ..

theorem toByteArray_of_fromUTF8? {bytes : ByteArray} {s : String} (h : String.fromUTF8? bytes = some s) :
    s.toUTF8 = bytes := by
  unfold String.fromUTF8? at h
  split at h
  · cases h
    rfl
  · cases h

theorem rewrites_string : Rewrites readString fun s w => string s = w := by
  refine rewrites_ulong.bind fun size w => ?_
  rintro ⟨_, rfl⟩
  refine .ite (fun _ => .throw ..) fun short => ?_
  refine (rewrites_take size).bind fun bytes w => ?_
  rintro ⟨rfl, rfl⟩
  split
  · next s decoded =>
    have stored := toByteArray_of_fromUTF8? decoded
    have size : s.utf8ByteSize = bytes.length := by
      rw [← String.size_toByteArray, ← String.toUTF8_eq_toByteArray, stored]
      rfl
    refine .pure ?_
    rw [Written.andThen_nothing, string, size, if_neg short, stored]
  · exact .throw ..

section

variable {α β : Type} {A : β → α → Prop} {write : β → Written} {read : Reader α}

theorem rewrites_option (each : Rewrites read fun a w => ∀ b, A b a → write b = w) :
    Rewrites (readOption read) fun o w => ∀ o', Option.Rel A o' o → option write o' = w := by
  refine rewrites_bool.bind fun given w => ?_
  rintro rfl
  cases given with
  | false =>
    refine .pure fun o' alike => ?_
    cases alike
    rw [option, Written.andThen_nothing]
  | true =>
    refine each.map fun a w written o' alike => ?_
    cases alike with
    | some alike => rw [option, written _ alike]

theorem rewrites_optionString : Rewrites (readOption readString) fun o w => option string o = w := by
  have each : Rewrites readString fun s w => ∀ s', s' = s → string s' = w :=
    rewrites_string.imp fun s w written s' same => same ▸ written
  refine (rewrites_option each).imp fun o w written => written o ?_
  cases o with
  | none => exact .none
  | some s => exact .some rfl

theorem rewrites_length : Rewrites readLength fun n w => length n = w := by
  refine rewrites_ulong.bind fun n w => ?_
  rintro ⟨_, rfl⟩
  refine .ite (fun _ => .throw ..) fun short => .pure ?_
  rw [Written.andThen_nothing, length, if_neg short]

variable {N : α → Prop}

theorem rewrites_each (each : Rewrites read fun a w => N a ∧ ∀ b, A b a → write b = w) (count : Nat) :
    Rewrites (readEach read count) fun as w =>
      as.length = count ∧ (∀ a ∈ as, N a) ∧ ∀ bs : List β, bs.Forall₂ A as → .each write bs = w := by
  induction count with
  | zero =>
    refine .pure ⟨rfl, List.forall_mem_nil _, fun bs alike => ?_⟩
    cases alike
    rfl
  | succ count ih =>
    refine each.bind fun a w first => ih.bind fun as w' rest => .pure ?_
    obtain ⟨own, first⟩ := first
    obtain ⟨length, others, rest⟩ := rest
    refine ⟨congrArg (· + 1) length, List.forall_mem_cons.2 ⟨own, others⟩, fun bs alike => ?_⟩
    cases alike with
    | cons ha has => rw [Written.each, first _ ha, rest _ has, Written.andThen_nothing]

theorem rewrites_list (each : Rewrites read fun a w => N a ∧ ∀ b, A b a → write b = w) :
    Rewrites (readList read) fun as w =>
      (∀ a ∈ as, N a) ∧ ∀ bs : List β, bs.Forall₂ A as → list write bs = w := by
  refine rewrites_length.bind fun n w => ?_
  rintro rfl
  refine (rewrites_each each n).imp fun as w => ?_
  rintro ⟨rfl, all, entries⟩
  refine ⟨all, fun bs alike => ?_⟩
  rw [list, alike.length_eq, entries bs alike]

end

theorem tag_of_plainType? {tag : Nat} {ty : Ty} (h : plainType? tag = some ty) (room : Nat) :
    type room ty = word tag := by
  unfold plainType? at h
  split at h <;> cases h <;> cases room <;> rfl

theorem rewrites_type (room : Nat) : Rewrites (readType room) fun ty w => type room ty = w := by
  have plain (room tag : Nat) :
      Rewrites ((plainType? tag).elim (throw (.unknownTag tag)) pure : Reader Ty) fun ty w =>
        type room ty = word tag >> w := by
    cases known : plainType? tag with
    | none => exact .throw ..
    | some ty =>
      refine .pure ?_
      rw [Written.andThen_nothing, tag_of_plainType? known]
  have name (room : Nat) : Rewrites (Ty.named <$> readString) fun ty w => type room ty = word 7 >> w :=
    rewrites_string.map fun s w written => by cases room <;> rw [type, written] <;> rfl
  induction room with
  | zero =>
    refine rewrites_word.bind fun tag w => ?_
    rintro rfl
    split
    · exact .throw ..
    · exact name 0
    · exact plain 0 _
  | succ room ih =>
    refine rewrites_word.bind fun tag w => ?_
    rintro rfl
    split
    · refine ih.map fun elem w written => ?_
      rw [type, written]
      rfl
    · exact name (room + 1)
    · exact plain (room + 1) _

theorem rewrites_value (h : Heap) {child : Variable → Written} {readChild : Reader Tree} {N : Tree → Prop}
    {A : Variable → Tree → Prop} (each : Rewrites readChild fun t w => N t ∧ ∀ e, A e t → child e = w)
    {tag : Nat} (known : tag ≤ 8) :
    Rewrites (readValue readChild tag) fun value w =>
      (∀ ts, value.storage? = some ts → ∀ t ∈ ts, N t) ∧
        ∀ a : Value Ref, a.Alike (fun r ts => List.Forall₂ A (h.elements r).toList ts) value →
          marker a = tag ∧
            (match a with
            | .unassigned | .void | .null => .nothing
            | .bool b => bool b
            | .int i => long i
            | .float x => ulong x.bits.toNat
            | .string s => string s
            | .array r => list child (h.elements r).toList
            | .object cls r => string cls >> list child (h.elements r).toList) = w := by
  have none {value : Value (List Tree)} (scalar : value.storage? = none) :
      ∀ ts, value.storage? = some ts → ∀ t ∈ ts, N t := fun ts holds => by
    rw [scalar] at holds
    cases holds
  unfold readValue
  split
  · refine .pure ⟨none rfl, fun a alike => ?_⟩
    cases alike
    exact ⟨rfl, rfl⟩
  · refine .pure ⟨none rfl, fun a alike => ?_⟩
    cases alike
    exact ⟨rfl, rfl⟩
  · refine rewrites_bool.map fun b w written => ⟨none rfl, fun a alike => ?_⟩
    cases alike
    exact ⟨rfl, written⟩
  · refine rewrites_long.map fun i w written => ⟨none rfl, fun a alike => ?_⟩
    cases alike
    exact ⟨rfl, written⟩
  · refine rewrites_ulong.bind fun n w written => .pure ⟨none rfl, fun a alike => ?_⟩
    obtain ⟨range, rfl⟩ := written
    cases alike
    rw [Written.andThen_nothing]
    exact ⟨rfl, congrArg ulong range⟩
  · refine rewrites_string.map fun s w written => ⟨none rfl, fun a alike => ?_⟩
    cases alike
    exact ⟨rfl, written⟩
  · refine .pure ⟨none rfl, fun a alike => ?_⟩
    cases alike
    exact ⟨rfl, rfl⟩
  · refine (rewrites_list each).map fun ts w written => ⟨fun _ holds => ?_, fun a alike => ?_⟩
    · cases holds
      exact written.1
    · cases alike with
      | array entries => exact ⟨rfl, written.2 _ entries⟩
  · have eight : tag = 8 := by grind
    refine rewrites_string.bind fun cls w named => (rewrites_list each).bind fun ts w' written => .pure ?_
    rw [Written.andThen_nothing, ← named]
    refine ⟨fun _ holds => ?_, fun a alike => ?_⟩
    · cases holds
      exact written.1
    · cases alike with
      | object cls entries => exact ⟨eight.symm, congrArg (string cls >> ·) (written.2 _ entries)⟩

theorem rewrites_tree (h : Heap) (room : Nat) :
    Rewrites (readTreeIn room) fun t w => t.Nested room ∧ ∀ v, h.Shows room v t → slotIn h room v = w := by
  induction room with
  | zero => exact .throw ..
  | succ room ih =>
    refine rewrites_word.bind fun tag w => ?_
    rintro rfl
    refine .ite (fun _ => .throw ..) fun known => ?_
    refine rewrites_ulong.bind fun id w => ?_
    rintro ⟨_, rfl⟩
    refine rewrites_optionString.bind fun name w => ?_
    rintro rfl
    refine (rewrites_type maxDepth).bind fun ty w => ?_
    rintro rfl
    refine rewrites_optionString.bind fun label w => ?_
    rintro rfl
    refine (rewrites_value h ih (Nat.not_lt.1 known)).bind fun value w written => ?_
    obtain ⟨nested, written⟩ := written
    refine .ite (fun fits => .pure ⟨nested, fun v shows => ?_⟩) fun _ => .throw ..
    obtain ⟨sameName, sameId, sameTy, value, sameLabel⟩ := shows
    obtain ⟨marked, contents⟩ := written v.value value
    rw [slotIn, payload, marked, sameName, sameId, sameTy, sameLabel, Written.andThen_nothing]
    exact congrArg (fun w => word tag >> ulong id >> option string name >> type maxDepth ty >>
      option string label >> w) contents

theorem list_congr {α β : Type} {write : α → Written} {write' : β → Written} {as : List α} {bs : List β}
    (same : as.Forall₂ (fun a b => write a = write' b) bs) : list write as = list write' bs := by
  rw [list, list, same.length_eq, Written.each_congr same]

theorem slotIn_of_alike {h k : Heap} {R : Ref → Ref → Prop} (heaps : h.Alike R k) (room : Nat)
    {v w : Variable} (alike : v.Alike R w) : slotIn h room v = slotIn k room w := by
  have sameMarker {a b : Value Ref} (alike : a.Alike R b) : marker a = marker b := by cases alike <;> rfl
  induction room generalizing v w with
  | zero => rw [slotIn, slotIn, sameMarker alike.value]
  | succ room ih =>
    have entries {r q : Ref} (related : R r q) :
        list (slotIn h room) (h.elements r).toList = list (slotIn k room) (k.elements q).toList :=
      list_congr ((heaps r q related).imp fun _ _ => ih)
    have value := alike.value
    rw [slotIn, slotIn, payload, payload, sameMarker value, alike.name, alike.id, alike.ty, alike.label]
    generalize v.value = a at value
    generalize w.value = b at value
    cases value with
    | array related => simp only [entries related]
    | object cls related => simp only [entries related]
    | _ => rfl

theorem slot_of_sameContent {h k : Heap} {v w : Variable} (same : h.SameContent k v w) : slot h v = slot k w := by
  obtain ⟨R, heaps, alike⟩ := same
  exact slotIn_of_alike heaps maxDepth alike

/-- A variable that is read is written as it was read, wherever it got its storage. -/
theorem slot_plant {input rest : List UInt8} {t : Tree} (run : readTree.run input = .ok (t, rest)) (k : Heap) :
    ∃ bytes, slot (k.plant t).2 (k.plant t).1 = .ofBytes bytes ∧ bytes ++ rest = input := by
  obtain ⟨bytes, split, nested, written⟩ := rewrites_tree (k.plant t).2 maxDepth run
  have planted := Heap.planted_nested nested k
  cases planted.shows with
  | cons shows _ => exact ⟨bytes, written _ shows, split⟩

/-- A type or variable that is read is written again with the bytes that it was read from, so within all
limits of the writer. No two inputs are read in full as one type, or as variables that hold the same. -/
theorem canonical :
    (∀ input ty rest, (readType maxDepth).run input = .ok (ty, rest) →
      ∃ bytes, (type maxDepth ty).toExcept = .ok bytes ∧ bytes ++ rest = input) ∧
    (∀ input t rest, readTree.run input = .ok (t, rest) → ∀ k : Heap,
      ∃ bytes, (slot (k.plant t).2 (k.plant t).1).toExcept = .ok bytes ∧ bytes ++ rest = input) ∧
    (∀ input input' ty, (readType maxDepth).run input = .ok (ty, []) →
      (readType maxDepth).run input' = .ok (ty, []) → input = input') ∧
    ∀ input input' t t', readTree.run input = .ok (t, []) → readTree.run input' = .ok (t', []) →
      ∀ k k' : Heap, (k.plant t).2.SameContent (k'.plant t').2 (k.plant t).1 (k'.plant t').1 → input = input' := by
  refine ⟨fun input ty rest run => ?_, fun input t rest run k => ?_, fun input input' ty run run' => ?_,
    fun input input' t t' run run' k k' same => ?_⟩
  · obtain ⟨bytes, split, written⟩ := rewrites_type maxDepth run
    exact ⟨bytes, by rw [written, Written.toExcept_ofBytes], split⟩
  · obtain ⟨bytes, written, split⟩ := slot_plant run k
    exact ⟨bytes, by rw [written, Written.toExcept_ofBytes], split⟩
  · obtain ⟨bytes, rfl, written⟩ := rewrites_type maxDepth run
    obtain ⟨bytes', rfl, written'⟩ := rewrites_type maxDepth run'
    cases written.symm.trans written'
    rfl
  · obtain ⟨bytes, written, rfl⟩ := slot_plant run k
    obtain ⟨bytes', written', rfl⟩ := slot_plant run' k'
    cases written.symm.trans ((slot_of_sameContent same).trans written')
    rfl

/-- The type of arrays of arrays of integers, and an array of the numbers 7 and 8, before one more byte. -/
theorem canonical_numbers :
    let entry (n : UInt8) : List UInt8 := [3, 0, 0, 0, 0, 0, 0, 0, 2, 0, 0, 0, n, 0, 0, 0]
    let numbers : List UInt8 := [7, 0, 5, 0, 0, 0, 0, 0, 6, 0, 2, 0, 0, 0, 2, 0, 0, 0] ++ entry 7 ++ entry 8
    let list : List UInt8 := [6, 0, 6, 0, 2, 0]
    let t : Tree := .mk { Slot.temp (.array .int) (.array [.mk (Slot.ofInt 7), .mk (Slot.ofInt 8)]) with id := 5 }
    (readType maxDepth).run (list ++ [1]) = .ok (.array (.array .int), [1]) ∧
      readTree.run (numbers ++ [1]) = .ok (t, [1]) ∧
      (∃ bytes, (type maxDepth (.array (.array .int))).toExcept = .ok bytes ∧ bytes ++ [1] = list ++ [1]) ∧
      (∃ bytes, (slot (Heap.empty.plant t).2 (Heap.empty.plant t).1).toExcept = .ok bytes ∧
        bytes ++ [1] = numbers ++ [1]) ∧
      ∃ list' numbers', (readType maxDepth).run list' = .ok (.array (.array .int), []) ∧ list = list' ∧
        readTree.run numbers' = .ok (t, []) ∧ numbers = numbers' := by
  intro entry numbers list t
  obtain ⟨types, trees, sameType, sameTree⟩ := canonical
  have readsType (rest : List UInt8) : (readType maxDepth).run (list ++ rest) = .ok (.array (.array .int), rest) :=
    rfl
  have reads (rest : List UInt8) : readTree.run (numbers ++ rest) = .ok (t, rest) := rfl
  have own : (Heap.empty.plant t).2.SameContent (sharing.plant t).2 (Heap.empty.plant t).1 (sharing.plant t).1 := by
    obtain ⟨_, _, nested, _⟩ := rewrites_tree .empty maxDepth (reads [])
    cases (Heap.planted_nested nested .empty).shows with
    | cons shows _ =>
      cases (Heap.planted_nested nested sharing).shows with
      | cons shows' _ => exact Heap.sameContent_of_shows shows shows'
  exact ⟨readsType [1], reads [1], types _ _ _ (readsType [1]), trees _ _ _ (reads [1]) .empty,
    _, _, readsType [], sameType _ _ _ (readsType []) (readsType []), reads [],
    sameTree _ _ _ _ (reads []) (reads []) .empty sharing own⟩

end Codec
end Tickwise
