import Tickwise.Codec.Value
import Tickwise.Proofs.Codec.Bytes
import Tickwise.Proofs.Storage.Alike
set_option autoImplicit false

/-!
# What can be written

A variable is written without error exactly if its arrays and objects are not nested too deep and all that it holds
keeps the limits of size. There is no end to the nesting of what holds itself, so that cannot be written.
-/
namespace Tickwise

def Ty.innermost : Ty → Ty
  | .array elem => elem.innermost
  | ty => ty

def Slot.Spells {ρ : Type} (v : Slot ρ) (s : String) : Prop :=
  v.name = some s ∨ v.ty.innermost = .named s ∨ v.label = some s ∨ v.value = .string s ∨ ∃ r, v.value = .object s r

namespace Heap

/-- A variable itself, leaving out its entries, is not too large to be written. -/
structure Sized (h : Heap) (v : Variable) : Prop where
  entries : (h.entries v).length ≤ 2 ^ 20
  strings : ∀ s, v.Spells s → s.utf8ByteSize ≤ 2 ^ 24
  dimensions : v.ty.dimensions ≤ 64

/-- Arrays or objects, each an entry of the one before. The first is `v`, and the last one has an entry. -/
structure Chain (h : Heap) (v : Variable) (vs : List Variable) : Prop where
  first : vs.head? = some v
  storage : ∀ w ∈ vs, w.value.storage?.isSome = true
  linked : vs.IsChain fun w e => e ∈ h.entries w
  last : ∃ w ∈ vs.getLast?, h.entries w ≠ []

/-- An array or object within a variable is reached from one of its own entries. -/
def Loops (h : Heap) (v : Variable) : Prop :=
  ∃ w e w', h.Holds v w ∧ e ∈ h.entries w ∧ h.Holds e w' ∧ w'.value.storage? = w.value.storage?

variable {h : Heap} {v e w : Variable} {vs : List Variable} {n : Nat}

theorem isSome_storage?_of_entry (first : e ∈ h.entries v) : v.value.storage?.isSome = true := by
  unfold entries at first
  cases held : v.value.storage? with
  | none =>
    rw [held] at first
    cases first
  | some r => rfl

theorem exists_chain_one_iff : (∃ vs, vs.length = 1 ∧ h.Chain v vs) ↔ h.entries v ≠ [] := by
  constructor
  · rintro ⟨vs, length, chain⟩
    obtain ⟨w, rfl⟩ := List.length_eq_one_iff.1 length
    obtain ⟨u, hu, last⟩ := chain.last
    cases chain.first
    cases hu
    exact last
  · intro some
    obtain ⟨e, he⟩ := List.exists_mem_of_ne_nil _ some
    refine ⟨[v], rfl, rfl, fun w hw => ?_, .singleton v, v, rfl, some⟩
    rw [List.mem_singleton.1 hw]
    exact isSome_storage?_of_entry he

theorem exists_chain_succ_iff : (∃ vs, vs.length = n + 2 ∧ h.Chain v vs) ↔
    ∃ e ∈ h.entries v, ∃ vs, vs.length = n + 1 ∧ h.Chain e vs := by
  constructor
  · rintro ⟨vs, length, chain⟩
    match vs, length, chain with
    | w :: e :: rest, length, chain =>
      cases chain.first
      obtain ⟨link, linked⟩ := List.isChain_cons_cons.1 chain.linked
      obtain ⟨u, hu, last⟩ := chain.last
      exact ⟨e, link, e :: rest, Nat.succ.inj length, rfl, (List.forall_mem_cons.1 chain.storage).2, linked, u, hu, last⟩
  · rintro ⟨e, link, vs, length, chain⟩
    cases vs with
    | nil => cases length
    | cons u rest =>
      cases chain.first
      obtain ⟨w, hw, last⟩ := chain.last
      exact ⟨v :: e :: rest, congrArg _ length, rfl,
        List.forall_mem_cons.2 ⟨isSome_storage?_of_entry link, chain.storage⟩, .cons_cons link chain.linked, w, hw, last⟩

theorem Loops.entry (loops : h.Loops v) : ∃ e ∈ h.entries v, h.Loops e := by
  obtain ⟨w, e, w', holds, first, back, same⟩ := loops
  cases holds with
  | entry into rest => exact ⟨_, into, w, e, w', rest, first, back, same⟩
  | self =>
    have again : e ∈ h.entries w' := by
      unfold entries at first ⊢
      rwa [same]
    exact ⟨e, first, w', e, w', back, again, back, rfl⟩

theorem Loops.exists_chain (loops : h.Loops v) (n : Nat) : ∃ vs, vs.length = n + 1 ∧ h.Chain v vs := by
  induction n generalizing v with
  | zero =>
    obtain ⟨e, first, _⟩ := loops.entry
    exact exists_chain_one_iff.2 (List.ne_nil_of_mem first)
  | succ n ih =>
    obtain ⟨e, first, loops⟩ := loops.entry
    exact exists_chain_succ_iff.2 ⟨e, first, ih loops⟩

end Heap

namespace Codec

/-- Written without error if `P` holds; otherwise something is nested too deep or too large. -/
structure Writes (w : Written) (P : Prop) : Prop where
  iff : w.error = none ↔ P
  cause : ∀ e, w.error = some e → e ∈ [Malformation.nestedTooDeep, .tooManyEntries, .stringTooLong].map .malformed

namespace Writes

variable {w more : Written} {P Q : Prop} {α : Type} {write : α → Written} {A : α → Prop}

theorem imp (h : Writes w P) (same : P ↔ Q) : Writes w Q := ⟨h.iff.trans same, h.cause⟩

theorem nothing : Writes .nothing True := ⟨iff_of_true rfl trivial, nofun⟩

theorem ofBytes (bytes : List UInt8) : Writes (.ofBytes bytes) True := ⟨iff_of_true rfl trivial, nofun⟩

theorem malformed {what : Malformation} (h : what ∈ [.nestedTooDeep, .tooManyEntries, .stringTooLong]) :
    Writes (.malformed what) False := by
  refine ⟨iff_of_false nofun id, fun e he => ?_⟩
  cases he
  exact List.mem_map_of_mem h

theorem then_ (first : Writes w P) (second : Writes more Q) : Writes (w >> more) (P ∧ Q) := by
  refine ⟨(Written.error_andThen w more).trans (and_congr first.iff second.iff), fun e he => ?_⟩
  change (w.andThen fun _ => more).error = some e at he
  unfold Written.andThen at he
  split at he
  · exact first.cause e he
  · exact second.cause e he

theorem after (second : Writes more Q) (first : Writes w True) : Writes (w >> more) Q :=
  (first.then_ second).imp (and_iff_right trivial)

theorem number {count n : Nat} (small : n < 1 <<< (8 * count)) : Writes (Codec.number count n) True := by
  unfold Codec.number
  rw [if_pos small]
  exact ofBytes _

theorem word {n : Nat} (small : n < 2 ^ 16) : Writes (Codec.word n) True := number small

theorem ulong {n : Nat} (small : n < 2 ^ 32) : Writes (Codec.ulong n) True := number small

theorem string (s : String) : Writes (Codec.string s) (s.utf8ByteSize ≤ 2 ^ 24) := by
  unfold Codec.string
  split
  next long => exact (malformed (by decide)).imp (iff_of_false id (Nat.not_le_of_gt long))
  next short =>
    have fits := Nat.le_of_not_gt short
    exact ((ofBytes _).after (ulong (Nat.lt_of_le_of_lt fits (by decide)))).imp (iff_of_true trivial fits)

theorem bool (b : Bool) : Writes (Codec.bool b) True := by
  unfold Codec.bool
  split <;> exact word (by decide)

theorem optionString (o : Option String) : Writes (option Codec.string o) (∀ s, o = some s → s.utf8ByteSize ≤ 2 ^ 24) := by
  cases o with
  | none => exact (bool false).imp (iff_of_true trivial nofun)
  | some s => exact ((string s).after (bool true)).imp (by simp)

theorem each {as : List α} (writes : ∀ a ∈ as, Writes (write a) (A a)) : Writes (.each write as) (∀ a ∈ as, A a) := by
  induction as with
  | nil => exact nothing.imp (by simp)
  | cons a as ih =>
    obtain ⟨first, rest⟩ := List.forall_mem_cons.1 writes
    exact (first.then_ (ih rest)).imp List.forall_mem_cons.symm

theorem list {as : List α} (writes : ∀ a ∈ as, Writes (write a) (A a)) :
    Writes (Codec.list write as) (as.length ≤ 2 ^ 20 ∧ ∀ a ∈ as, A a) := by
  refine then_ ?_ (each writes)
  unfold Codec.length
  split
  next many => exact (malformed (by decide)).imp (iff_of_false id (Nat.not_le_of_gt many))
  next few =>
    have fits := Nat.le_of_not_gt few
    exact (ulong (Nat.lt_of_le_of_lt fits (by decide))).imp (iff_of_true trivial fits)

theorem tag (ty : Ty) : Writes (Codec.word ty.tag) True := word (by cases ty <;> simp [Ty.tag])

theorem type (room : Nat) (ty : Ty) : Writes (Codec.type room ty)
    (ty.dimensions ≤ room ∧ ∀ s, ty.innermost = .named s → s.utf8ByteSize ≤ 2 ^ 24) := by
  have named (room : Nat) (cls : String) : Writes (Codec.string cls) ((Ty.named cls).dimensions ≤ room ∧
      ∀ s, (Ty.named cls).innermost = .named s → s.utf8ByteSize ≤ 2 ^ 24) :=
    (string cls).imp (by simp [Ty.dimensions, Ty.innermost])
  have plain (room : Nat) {ty : Ty} (dims : ty.dimensions = 0) (other : ∀ s, ty.innermost ≠ .named s) :
      Writes (Codec.word ty.tag) (ty.dimensions ≤ room ∧ ∀ s, ty.innermost = .named s → s.utf8ByteSize ≤ 2 ^ 24) :=
    (tag ty).imp (iff_of_true trivial ⟨by omega, fun s same => absurd same (other s)⟩)
  induction room generalizing ty with
  | zero =>
    cases ty with
    | array elem =>
      refine ((malformed (by decide)).after (tag _)).imp (iff_of_false id fun both => ?_)
      exact absurd both.1 (Nat.not_succ_le_zero _)
    | named cls => exact (named 0 cls).after (tag _)
    | _ => exact plain 0 rfl nofun
  | succ room ih =>
    cases ty with
    | array elem => exact ((ih elem).after (tag _)).imp (and_congr_left' Nat.succ_le_succ_iff.symm)
    | named cls => exact (named _ cls).after (tag _)
    | _ => exact plain _ rfl nofun

variable {h : Heap} {child : Variable → Written} {v : Variable} {E : Variable → Prop}

theorem value (writes : ∀ e ∈ h.entries v, Writes (child e) (E e)) :
    Writes
      (match v.value with
      | .unassigned | .void | .null => .nothing
      | .bool b => Codec.bool b
      | .int i => long i
      | .float x => Codec.ulong x.bits.toNat
      | .string s => Codec.string s
      | .array r => Codec.list child (h.elements r).toList
      | .object cls r => Codec.string cls >> Codec.list child (h.elements r).toList)
      ((∀ s, v.value = .string s ∨ (∃ r, v.value = .object s r) → s.utf8ByteSize ≤ 2 ^ 24) ∧
        (h.entries v).length ≤ 2 ^ 20 ∧ ∀ e ∈ h.entries v, E e) := by
  have entries : h.entries v = v.value.storage?.elim [] fun r => (h.elements r).toList := by
    unfold Heap.entries
    cases v.value.storage? <;> rfl
  rw [entries] at writes ⊢
  generalize v.value = held at writes ⊢
  have stored {r : Ref} (writes : ∀ e ∈ (h.elements r).toList, Writes (child e) (E e)) := list writes
  cases held with
  | unassigned | void | null => exact nothing.imp (by simp [Value.storage?])
  | bool b => exact (bool b).imp (by simp [Value.storage?])
  | int i => exact (ulong i.toUInt32.toNat_lt).imp (by simp [Value.storage?])
  | float x => exact (ulong x.bits.toNat_lt).imp (by simp [Value.storage?])
  | string s => exact (string s).imp (by simp [Value.storage?])
  | array r => exact (stored writes).imp (by simp [Value.storage?])
  | object cls r => exact ((string cls).then_ (stored writes)).imp (by simp [Value.storage?])

theorem payload (id : v.id < 2 ^ 32) (writes : ∀ e ∈ h.entries v, Writes (child e) (E e)) :
    Writes (Codec.payload h child v) (h.Sized v ∧ ∀ e ∈ h.entries v, E e) := by
  have tail := (optionString v.label).then_ (value (h := h) (v := v) writes)
  have all : Writes (Codec.payload h child v) _ := ((optionString v.name).then_ ((type 64 v.ty).then_ tail)).after (ulong id)
  refine all.imp ⟨?_, ?_⟩
  · rintro ⟨name, ⟨dimensions, cls⟩, label, held, entries, all⟩
    refine ⟨⟨entries, ?_, dimensions⟩, all⟩
    rintro s (isName | isClass | isLabel | isValue)
    · exact name s isName
    · exact cls s isClass
    · exact label s isLabel
    · exact held s isValue
  · rintro ⟨sized, all⟩
    exact ⟨fun s isName => sized.strings s (.inl isName),
      ⟨sized.dimensions, fun s isClass => sized.strings s (.inr (.inl isClass))⟩,
      fun s isLabel => sized.strings s (.inr (.inr (.inl isLabel))),
      fun s isValue => sized.strings s (.inr (.inr (.inr isValue))), sized.entries, all⟩

theorem slotIn (h : Heap) (room : Nat) {v : Variable} (ids : ∀ w, h.Holds v w → w.id < 2 ^ 32) :
    Writes (Codec.slotIn h (room + 1) v)
      ((¬ ∃ vs, vs.length = room + 1 ∧ h.Chain v vs) ∧ ∀ w, h.Holds v w → h.Sized w) := by
  have mark (v : Variable) : Writes (Codec.word (marker v.value)) True := word (by cases v.value <;> simp [marker])
  induction room generalizing v with
  | zero =>
    obtain ⟨id, inner⟩ := Heap.forall_holds_iff.1 ids
    have none (e : Variable) : Writes (Codec.slotIn h 0 e) False := (malformed (by decide)).after (mark e)
    refine ((payload id fun e _ => none e).after (mark v)).imp ?_
    rw [Heap.exists_chain_one_iff, not_not, Heap.forall_holds_iff]
    constructor
    · rintro ⟨own, empty⟩
      exact ⟨List.eq_nil_iff_forall_not_mem.2 empty, own, fun e first => (empty e first).elim⟩
    · rintro ⟨empty, own, _⟩
      exact ⟨own, List.eq_nil_iff_forall_not_mem.1 empty⟩
  | succ room ih =>
    obtain ⟨id, inner⟩ := Heap.forall_holds_iff.1 ids
    refine ((payload id fun e first => ih (inner e first)).after (mark v)).imp ?_
    rw [Heap.exists_chain_succ_iff, Heap.forall_holds_iff (v := v)]
    constructor
    · rintro ⟨own, entries⟩
      exact ⟨fun ⟨e, first, chain⟩ => (entries e first).1 chain, own, fun e first => (entries e first).2⟩
    · rintro ⟨short, own, entries⟩
      exact ⟨own, fun e first => ⟨fun chain => short ⟨e, first, chain⟩, entries e first⟩⟩

end Writes

/-- A variable is written without error exactly if there is no chain of 64 arrays or objects from it whose last one has
an entry, and all that it holds is limited in size; so never where an array or object is reached from itself. Every
error says that something is nested too deep or too large. -/
theorem slot_written_iff (h : Heap) (v : Variable) (ids : ∀ w, h.Holds v w → w.id < 2 ^ 32) :
    ((slot h v).error = none ↔ (¬ ∃ vs, vs.length = 64 ∧ h.Chain v vs) ∧ ∀ w, h.Holds v w → h.Sized w) ∧
    (h.Loops v → (slot h v).error ≠ none) ∧
    ∀ e, (slot h v).error = some e → e ∈ [Malformation.nestedTooDeep, .tooManyEntries, .stringTooLong].map .malformed := by
  have writes : Writes (slot h v) _ := .slotIn h 63 ids
  exact ⟨writes.iff, fun loops written => (writes.iff.1 written).1 (loops.exists_chain 63), writes.cause⟩

def ring : Heap := ⟨#[#[⟨some "next", 0, .named "Node", .object "Node" 0, none⟩]]⟩

theorem slot_written_iff_ring :
    let node : Variable := ⟨some "node", 1, .named "Node", .object "Node" 0, none⟩
    (∀ w, ring.Holds node w → w.id < 2 ^ 32) ∧ ring.Loops node ∧ ∃ what, (slot ring node).error = some (.malformed what) := by
  intro node
  let next : Variable := ⟨some "next", 0, .named "Node", .object "Node" 0, none⟩
  have closed : ∀ v ∈ [node, next], ∀ e ∈ ring.entries v, e ∈ [node, next] := by decide
  have within (v w : Variable) (holds : ring.Holds v w) (known : v ∈ [node, next]) : w ∈ [node, next] := by
    induction holds with
    | self => exact known
    | entry first _ ih => exact ih (closed _ known _ first)
  have ids (w : Variable) (holds : ring.Holds node w) : w.id < 2 ^ 32 :=
    (show ∀ w ∈ [node, next], w.id < 2 ^ 32 by decide) w (within node w holds List.mem_cons_self)
  have loops : ring.Loops node := ⟨node, next, next, .self _, by decide, .self _, rfl⟩
  obtain ⟨_, fails, causes⟩ := slot_written_iff ring node ids
  obtain ⟨e, failed⟩ := Option.ne_none_iff_exists'.1 (fails loops)
  obtain ⟨what, _, rfl⟩ := List.mem_map.1 (causes e failed)
  exact ⟨ids, loops, what, failed⟩

end Codec
end Tickwise
