import Commute.Foundation.FiniteMap
import Mathlib.Data.List.Lex
import Mathlib.Data.List.Sort

/-!
# JSON documents and how `encoding/json` reads and writes them

A string of a program is a sequence of bytes, a string of a document a sequence
of characters. Writing a string replaces every byte that is not part of a UTF-8
sequence by U+FFFD, so exactly the valid strings survive.

A decoder reads a document into a value of one type. As in `encoding/json`,
`null` leaves numbers and structs as they are and makes maps, slices and pointers
nil; the fields of a struct are matched up to letter case, unknown ones are
skipped, and a name that occurs twice is read twice. An array is read into the
memory of the slice that is there already: if its name occurs twice, an element of
the second array starts from what the element of the first array left behind.
-/
namespace Commute

/-- A string of a program. -/
def ByteString := List UInt8
deriving DecidableEq, Inhabited

def ByteString.of (bytes : List UInt8) : ByteString := bytes

/-- Strings are compared byte by byte. -/
instance : LinearOrder ByteString :=
  LinearOrder.lift' (List.map UInt8.toNat)
    (List.map_injective_iff.mpr fun _ _ h => UInt8.toNat_inj.mp h)

inductive Json where
  | null
  | bool (b : Bool)
  /-- A number written with digits only. -/
  | nat (n : ℕ)
  /-- Any other number. -/
  | number (literal : List Char)
  | str (s : List Char)
  | arr (elements : List Json)
  | obj (members : List (List Char × Json))

inductive UnmarshalError where
  | mismatch

namespace Json

section Strings

def utf8 (s : List Char) : List UInt8 := s.flatMap String.utf8EncodeChar

def decodeString (s : List Char) : ByteString := .of (utf8 s)

def Valid (s : ByteString) : Prop := ∃ t, decodeString t = s

/-- The first character, if the bytes start with a UTF-8 sequence. -/
def decodeRune (s : List UInt8) : Option Char := s.toByteArray.utf8DecodeChar? 0

/-- The characters of a string of at most `fuel` bytes, as they are written. -/
def encodeBytes : ℕ → List UInt8 → List Char
  | 0, _ => []
  | _ + 1, [] => []
  | fuel + 1, b :: s =>
    match decodeRune (b :: s) with
    | some c => c :: encodeBytes fuel ((b :: s).drop c.utf8Size)
    | none => Char.ofNat 0xfffd :: encodeBytes fuel s

def encodeString (s : ByteString) : List Char := encodeBytes (List.length s) s

theorem decodeRune_append (c : Char) (s : List UInt8) :
    decodeRune (String.utf8EncodeChar c ++ s) = some c := by
  unfold decodeRune
  rw [List.toByteArray_append]
  exact ByteArray.utf8DecodeChar?_utf8EncodeChar_append

theorem encodeBytes_utf8 (t : List Char) {fuel : ℕ} (h : (utf8 t).length ≤ fuel) :
    encodeBytes fuel (utf8 t) = t := by
  induction t generalizing fuel with
  | nil => cases fuel <;> rfl
  | cons c t ih =>
    have hcons : utf8 (c :: t) = String.utf8EncodeChar c ++ utf8 t := rfl
    have hsize := String.length_utf8EncodeChar c
    have hpos := c.utf8Size_pos
    rw [hcons, List.length_append, hsize] at h
    obtain ⟨fuel, rfl⟩ : ∃ n, fuel = n + 1 := ⟨fuel - 1, by omega⟩
    rw [hcons]
    cases henc : String.utf8EncodeChar c with
    | nil => simp [henc] at hsize; omega
    | cons b bs =>
      have hrune := decodeRune_append c (utf8 t)
      rw [henc] at hrune hsize
      rw [List.cons_append] at hrune ⊢
      rw [encodeBytes, hrune]
      dsimp only
      rw [← List.cons_append, ← hsize, List.drop_left, ih (by omega)]

theorem encodeString_decodeString (t : List Char) : encodeString (decodeString t) = t :=
  encodeBytes_utf8 t le_rfl

theorem Valid.decode_encode {s : ByteString} (h : Valid s) : decodeString (encodeString s) = s := by
  obtain ⟨t, rfl⟩ := h
  rw [encodeString_decodeString]

theorem valid_decodeString (t : List Char) : Valid (decodeString t) := ⟨t, rfl⟩

theorem valid_empty : Valid default := valid_decodeString []

theorem valid_iff {s : ByteString} : Valid s ↔ decodeString (encodeString s) = s :=
  ⟨Valid.decode_encode, fun h => ⟨_, h⟩⟩

instance : DecidablePred Valid := fun _ => decidable_of_iff _ valid_iff.symm

example : Valid (.of [0x61]) ∧ ¬ Valid (.of [0xff]) := by decide

end Strings

section Names

/-- Simple case folding, as far as it concerns ASCII letters: the long s and the Kelvin sign
are the only other characters that fold to one. -/
def foldRune (c : Char) : Char :=
  if c = Char.ofNat 0x017f then 's' else if c = Char.ofNat 0x212a then 'k' else c.toLower

/-- The member name `key` is read into the field `name`. -/
def named (name : String) (key : List Char) : Bool :=
  key.map foldRune == name.toList.map foldRune

end Names

section Decoders

abbrev Decoder (α : Type) := Json → Except UnmarshalError α

variable {σ V W : Type}

def uint64 (old : UInt64) : Decoder UInt64
  | null => .ok old
  | nat n => if n < 2 ^ 64 then .ok (.ofNat n) else .error .mismatch
  | _ => .error .mismatch

def boolean (old : Bool) : Decoder Bool
  | null => .ok old
  | bool b => .ok b
  | _ => .error .mismatch

def string (old : ByteString) : Decoder ByteString
  | null => .ok old
  | str s => .ok (decodeString s)
  | _ => .error .mismatch

/-- The first `len` elements of some memory. -/
structure Slice (V : Type) where
  memory : List V
  len : ℕ

def Slice.nil : Slice V := ⟨[], 0⟩

def Slice.toList (s : Slice V) : List V := s.memory.take s.len

/-- The elements of an array, each read over what is at its place in memory. -/
def array (element : V → Decoder V) (zero : V) :
    List V → List Json → Except UnmarshalError (List V)
  | memory, [] => .ok memory
  | memory, j :: elements => do
    let v ← element (memory.headD zero) j
    let rest ← array element zero memory.tail elements
    .ok (v :: rest)

/-- A slice, which keeps the memory of the old one. -/
def slice (element : V → Decoder V) (zero : V) (old : Slice V) : Decoder (Slice V)
  | null | arr [] => .ok .nil
  | arr elements => (array element zero old.memory elements).map (⟨·, elements.length⟩)
  | _ => .error .mismatch

/-- A map; the entries of a document are added to those the map has. -/
def map (element : Decoder V) (old : Option (FMap ByteString V)) :
    Decoder (Option (FMap ByteString V))
  | null => .ok none
  | obj members =>
    (members.foldlM (fun m e => (element e.2).map (m.insert (decodeString e.1)))
      (old.getD ∅)).map some
  | _ => .error .mismatch

/-- A pointer to a value that is read as a whole. -/
def pointer (element : Decoder V) : Decoder (Option V)
  | null => .ok none
  | j => (element j).map some

/-- A struct, whose members are read by `field` one after the other. -/
def struct (field : List Char → Json → σ → Except UnmarshalError σ) (old : σ) : Decoder σ
  | null => .ok old
  | obj members => members.foldlM (fun v e => field e.1 e.2 v) old
  | _ => .error .mismatch

end Decoders

section Encoders

variable {V W : Type}

/-- The members of an object are ordered by their names. -/
def ofMap (f : V → Json) (m : FMap ByteString V) : Json :=
  .obj ((m.entries.insertionSort fun a b => a.1 ≤ b.1).map fun e => (encodeString e.1, f e.2))

def ofList (f : V → Json) (l : List V) : Json := .arr (l.map f)

end Encoders

section Reading

variable {α σ V : Type}

/-- If the document is accepted, what is read has the property `P`. -/
abbrev Accepts (P : α → Prop) (x : Except UnmarshalError α) : Prop := Outcome (fun _ => True) P x

/-- What the elements of a document are read as, the entries of its map have. -/
theorem map_accepts {element : Decoder V} {P : ByteString → V → Prop}
    (helement : ∀ k j, Valid k → Accepts (P k) (element j)) {old : Option (FMap ByteString V)}
    (hold : ∀ k v, (old.getD ∅).lookup k = some v → P k v) (j : Json) :
    Accepts (fun r => ∀ k v, (r.getD ∅).lookup k = some v → P k v) (map element old j) := by
  cases j with
  | null => exact fun k v h => nomatch h
  | obj members =>
    refine Outcome.map (P := fun m : FMap ByteString V => ∀ k v, m.lookup k = some v → P k v)
      (Outcome.foldlM (fun m e _ hm => ?_) hold) fun m hm => hm
    exact (helement (decodeString e.1) e.2 (valid_decodeString e.1)).map
      fun v hv => FMap.forall_insert hm hv
  | _ => trivial

theorem struct_accepts {field : List Char → Json → σ → Except UnmarshalError σ} {P : σ → Prop}
    (hfield : ∀ key j v, P v → Accepts P (field key j v)) {old : σ} (hold : P old) (j : Json) :
    Accepts P (struct field old j) := by
  cases j with
  | null => exact hold
  | obj members => exact Outcome.foldlM (fun v e _ hv => hfield e.1 e.2 v hv) hold
  | _ => trivial

theorem pointer_accepts {element : Decoder V} {P : V → Prop}
    (helement : ∀ j, Accepts P (element j)) (j : Json) :
    Accepts (fun p => ∀ v, p = some v → P v) (pointer element j) := by
  cases j with
  | null => exact fun v h => nomatch h
  | _ =>
    refine (helement _).map fun v hv => ?_
    rintro _ ⟨⟩
    exact hv

end Reading

section RoundTrip

variable {V W : Type}

theorem foldlM_members {element : Decoder W} {f : V → Json} (es : List (Σ _ : ByteString, V))
    (hvalid : ∀ e ∈ es, Valid e.1) (m : FMap ByteString W) :
    (es.map fun e => (encodeString e.1, f e.2)).foldlM
        (fun m e => (element e.2).map (m.insert (decodeString e.1))) m =
      es.foldlM (fun m e => (element (f e.2)).map (m.insert e.1)) m := by
  induction es generalizing m with
  | nil => rfl
  | cons e es ih =>
    rw [List.map_cons, List.foldlM_cons, List.foldlM_cons,
      (hvalid e List.mem_cons_self).decode_encode]
    refine congrArg _ (funext fun m' => ?_)
    exact ih (fun e' he' => hvalid e' (List.mem_cons_of_mem _ he')) m'

/-- A map with valid keys is read back with the same keys, each bound to what its element is
read back as. -/
theorem map_ofMap [Nonempty W] {element : Decoder W} {f : V → Json} {R : V → W → Prop}
    {m : FMap ByteString V} (hvalid : ∀ k v, m.lookup k = some v → Valid k)
    (helement : ∀ k v, m.lookup k = some v → ∃ w, element (f v) = .ok w ∧ R v w) :
    ∃ m', map element none (ofMap f m) = .ok (some m') ∧
      ∀ k, Option.Rel R (m.lookup k) (m'.lookup k) := by
  choose! g hg hR using helement
  have hperm := List.perm_insertionSort (fun a b : Σ _ : ByteString, V => a.1 ≤ b.1) m.entries
  generalize hes : m.entries.insertionSort (fun a b => a.1 ≤ b.1) = es at hperm
  have hnodup : es.NodupKeys := (List.perm_nodupKeys hperm).mpr m.nodupKeys
  have hlookup : ∀ k, es.dlookup k = m.lookup k := fun k => List.perm_dlookup k hnodup hperm
  have hmem : ∀ e ∈ es, m.lookup e.1 = some e.2 :=
    fun e he => FMap.mem_entries_iff.mp (hperm.mem_iff.mp he)
  obtain ⟨m', hm', heq⟩ := FMap.foldlM_insert_eq_ok (f := fun _ _ v => element (f v)) (g := g)
    es hnodup ∅ fun k v hv => hg k v (hlookup k ▸ hv)
  refine ⟨m', ?_, ?_⟩
  · unfold map ofMap
    rw [hes]
    dsimp only
    rw [foldlM_members es (fun e he => hvalid e.1 e.2 (hmem e he))]
    exact congrArg (Except.map some) hm'
  · intro k
    rw [heq k, hlookup k]
    cases hk : m.lookup k with
    | none => exact .none
    | some v => exact .some (hR k v hk)

theorem uint64_nat (old n : UInt64) : uint64 old (.nat n.toNat) = .ok n := by
  unfold uint64
  dsimp only
  rw [if_pos n.toNat_lt, UInt64.ofNat_toNat]

theorem array_map {element : V → Decoder V} {f : V → Json} {l : List V}
    (h : ∀ v ∈ l, ∀ old, element old (f v) = .ok v) (zero : V) :
    array element zero [] (l.map f) = .ok l := by
  induction l with
  | nil => rfl
  | cons v l ih =>
    obtain ⟨hv, hl⟩ := List.forall_mem_cons.mp h
    rw [List.map_cons, array, hv, List.tail_nil, ih hl]
    rfl

theorem slice_ofList {element : V → Decoder V} {f : V → Json} {l : List V}
    (h : ∀ v ∈ l, ∀ old, element old (f v) = .ok v) (zero : V) :
    slice element zero .nil (ofList f l) = .ok ⟨l, l.length⟩ := by
  cases l with
  | nil => rfl
  | cons v l =>
    have hread := array_map h zero
    unfold slice ofList
    rw [List.map_cons] at hread ⊢
    dsimp only
    rw [show (Slice.nil : Slice V).memory = [] from rfl, hread, List.length_cons, List.length_map]
    rfl

end RoundTrip

end Json
end Commute
