import ImpToC.Text.Bytes

/-!
Characters as bytes. A character of ASCII is one byte, its own, and all bytes of any other
character lie beyond ASCII, so a byte of ASCII is never met inside of a character. The first
byte of a character can be told from the others by its two highest bits, and so it can be
told where a text may be cut.
-/
namespace ImpToC

namespace Bytes

/-- The bytes of some characters. -/
def encode (cs : List Char) : Bytes := cs.flatMap String.utf8EncodeChar

@[simp] theorem encode_nil : encode [] = [] := rfl

@[simp] theorem encode_cons (c : Char) (cs : List Char) :
    encode (c :: cs) = String.utf8EncodeChar c ++ encode cs := rfl

@[simp] theorem encode_append (first second : List Char) :
    encode (first ++ second) = encode first ++ encode second := List.flatMap_append

theorem ofText_eq_encode (text : String) : ofText text = encode text.toList := by
  rw [ofText, String.toUTF8_eq_toByteArray, ← String.utf8Encode_toList]
  simp [List.utf8Encode, encode]

theorem toText?_ofText (text : String) : (ofText text).toText? = some text := by
  have whole : (⟨(ofText text).toArray⟩ : ByteArray) = text.toByteArray := by
    rw [ofText, Array.toArray_toList]
    rfl
  rw [toText?, whole, String.fromUTF8?, dif_pos text.isValidUTF8]
  rfl

theorem ofText_of_toText? {bytes : Bytes} {text : String} (decoded : bytes.toText? = some text) :
    ofText text = bytes := by
  unfold toText? String.fromUTF8? at decoded
  split at decoded
  · cases decoded
    rfl
  · cases decoded

theorem toText?_encode (cs : List Char) : (encode cs).toText? = some (String.ofList cs) := by
  have whole : encode cs = ofText (String.ofList cs) := by rw [ofText_eq_encode, String.toList_ofList]
  rw [whole, toText?_ofText]

/-- Whether a byte goes on with a character that began in front of it. -/
def continues (b : UInt8) : Bool := b &&& 0xC0 == 0x80

theorem continues_iff (b : UInt8) : continues b = true ↔ 128 ≤ b.toNat ∧ b.toNat < 192 := by
  have each : ∀ n : Fin 256, continues ⟨⟨n⟩⟩ = true ↔ 128 ≤ n.val ∧ n.val < 192 := by decide +kernel
  exact each b.toFin

/-- A character of ASCII is its own byte. Any other one has a byte that begins it, above the
bytes that go on with it, and then only such bytes. -/
theorem encodeChar_cases (c : Char) :
    c.toNat < 128 ∧ String.utf8EncodeChar c = [c.toUInt8] ∨
      128 ≤ c.toNat ∧ ∃ b bs, String.utf8EncodeChar c = b :: bs ∧ 192 ≤ b.toNat ∧
        ∀ d ∈ bs, continues d = true := by
  have value {n : Nat} (small : n < 256) : (UInt8.ofNat n).toNat = n := Nat.mod_eq_of_lt small
  have more (ns : List Nat) : ∀ d ∈ ns.map fun n => UInt8.ofNat (n % 64 + 128), continues d = true := by
    intro d part
    obtain ⟨n, _, rfl⟩ := List.mem_map.mp part
    rw [continues_iff, value (by omega)]
    omega
  unfold String.utf8EncodeChar
  change (c.toNat < 128 ∧ (if c.toNat ≤ 127 then _ else _) = _) ∨
    128 ≤ c.toNat ∧ ∃ b bs, (if c.toNat ≤ 127 then _ else _) = _ ∧ _
  split
  · exact .inl ⟨by omega, rfl⟩
  refine .inr ⟨by omega, ?_⟩
  -- How many bytes there are goes by the value; the first one holds its highest bits.
  split
  · refine ⟨_, _, rfl, ?_, more [_]⟩
    rw [value (by omega)]
    omega
  split
  · refine ⟨_, _, rfl, ?_, more [_, _]⟩
    rw [value (by omega)]
    omega
  · refine ⟨_, _, rfl, ?_, more [_, _, _]⟩
    rw [value (by omega)]
    omega

theorem toNat_toUInt8 {c : Char} (ascii : c.toNat < 128) : c.toUInt8.toNat = c.toNat :=
  Nat.mod_eq_of_lt (show c.toNat < 256 by omega)

theorem encode_ascii {c : Char} (ascii : c.toNat < 128) : encode [c] = [c.toUInt8] := by
  rcases encodeChar_cases c with ⟨_, alone⟩ | ⟨beyond, _⟩
  · rw [encode_cons, alone]
    rfl
  · omega

/-- Of the bytes of a character all but the first go on with it. -/
theorem encodeChar_eq_cons (c : Char) :
    ∃ b bs, String.utf8EncodeChar c = b :: bs ∧ continues b = false ∧ ∀ d ∈ bs, continues d = true := by
  have first (b : UInt8) (other : b.toNat < 128 ∨ 192 ≤ b.toNat) : continues b = false := by
    rw [Bool.eq_false_iff, ne_eq, continues_iff]
    omega
  rcases encodeChar_cases c with ⟨ascii, alone⟩ | ⟨_, b, bs, shown, high, more⟩
  · refine ⟨_, [], alone, first _ (.inl ?_), by simp⟩
    rw [toNat_toUInt8 ascii]
    exact ascii
  · exact ⟨b, bs, shown, first b (.inr high), more⟩

/-- A byte alone, taken for a character: it is the one it belongs to, or both lie beyond ASCII. -/
theorem ofUInt8_of_mem {c : Char} {b : UInt8} (part : b ∈ String.utf8EncodeChar c) :
    Char.ofUInt8 b = c ∨ 128 ≤ c.toNat ∧ 128 ≤ (Char.ofUInt8 b).toNat := by
  have value : (Char.ofUInt8 b).toNat = b.toNat := rfl
  rcases encodeChar_cases c with ⟨ascii, alone⟩ | ⟨beyond, first, bs, shown, high, more⟩
  · left
    rw [alone, List.mem_singleton] at part
    rw [← Char.toNat_inj, value, part, toNat_toUInt8 ascii]
  · right
    refine ⟨beyond, ?_⟩
    rw [shown, List.mem_cons] at part
    rcases part with rfl | part
    · omega
    · have := (continues_iff b).mp (more b part)
      omega

theorem ofUInt8_eq_iff {a c : Char} {b : UInt8} (ascii : a.toNat < 128)
    (part : b ∈ String.utf8EncodeChar c) : Char.ofUInt8 b = a ↔ c = a := by
  rcases ofUInt8_of_mem part with same | ⟨beyond, far⟩
  · rw [same]
  · exact iff_of_false (by rintro rfl; omega) (by rintro rfl; omega)

/-- Whether a text may be cut in front of its byte number `i`. -/
def isBoundary (bytes : Bytes) (i : Nat) : Bool :=
  match bytes[i]? with
  | none => i = bytes.length
  | some b => !continues b

theorem isBoundary_iff (bytes : Bytes) (i : Nat) :
    isBoundary bytes i = true ↔ i = bytes.length ∨ ∃ b, bytes[i]? = some b ∧ continues b = false := by
  unfold isBoundary
  split
  · next missing => simp [missing]
  · next b found =>
    obtain ⟨inside, _⟩ := List.getElem?_eq_some_iff.mp found
    simp [found, Nat.ne_of_lt inside]

/-- Between two characters a text may be cut. -/
theorem isBoundary_encode (before rest : List Char) :
    isBoundary (encode (before ++ rest)) (encode before).length = true := by
  rw [isBoundary_iff, encode_append]
  cases rest with
  | nil => exact .inl (by rw [encode_nil, List.append_nil])
  | cons c rest =>
    obtain ⟨b, bs, shown, first, _⟩ := encodeChar_eq_cons c
    exact .inr ⟨b, by simp [shown], first⟩

/-- It may be cut nowhere else: inside of a character there are only bytes that go on with it. -/
theorem append_of_isBoundary {cs : List Char} {i : Nat} (boundary : isBoundary (encode cs) i = true) :
    ∃ before rest, cs = before ++ rest ∧ i = (encode before).length := by
  induction cs generalizing i with
  | nil =>
    rcases (isBoundary_iff _ _).mp boundary with last | ⟨b, found, _⟩
    · exact ⟨[], [], rfl, last⟩
    · cases found
  | cons c cs ih =>
    rcases Nat.eq_zero_or_pos i with rfl | later
    · exact ⟨[], c :: cs, rfl, rfl⟩
    rw [isBoundary_iff, encode_cons, List.length_append] at boundary
    -- Inside of the first character no byte begins one; behind it the other characters decide.
    by_cases inside : i < (String.utf8EncodeChar c).length
    · obtain ⟨b, bs, shown, _, more⟩ := encodeChar_eq_cons c
      obtain ⟨d, found, first⟩ := boundary.resolve_left (by omega)
      rw [List.getElem?_append_left inside, shown] at found
      obtain ⟨n, rfl⟩ := Nat.exists_eq_add_one.mpr later
      rw [more d (List.mem_of_getElem? found)] at first
      cases first
    · have beyond := Nat.le_of_not_lt inside
      rw [List.getElem?_append_right beyond] at boundary
      have behind : isBoundary (encode cs) (i - (String.utf8EncodeChar c).length) = true :=
        (isBoundary_iff _ _).mpr (boundary.imp_left fun last => by omega)
      obtain ⟨before, rest, parted, offset⟩ := ih behind
      refine ⟨c :: before, rest, by rw [parted, List.cons_append], ?_⟩
      rw [encode_cons, List.length_append]
      omega

/-- Where a text may be cut. -/
theorem isBoundary_ofText (text : String) (i : Nat) :
    (ofText text).isBoundary i = true ↔ (⟨i⟩ : String.Pos.Raw).IsValid text := by
  have size (front : String) : front.rawEndPos = ⟨(ofText front).length⟩ := rfl
  rw [String.Pos.Raw.isValid_iff_exists_append, ofText_eq_encode]
  constructor
  · intro boundary
    obtain ⟨before, rest, parted, rfl⟩ := append_of_isBoundary boundary
    refine ⟨String.ofList before, String.ofList rest, ?_, ?_⟩
    · rw [← String.ofList_append, ← parted, String.ofList_toList]
    · rw [size, ofText_eq_encode, String.toList_ofList]
  · rintro ⟨front, back, rfl, offset⟩
    rw [size, ofText_eq_encode] at offset
    obtain rfl := congrArg String.Pos.Raw.byteIdx offset
    rw [String.toList_append]
    exact isBoundary_encode _ _

/-- What cannot tell characters beyond ASCII apart. -/
def Coarse (p : Char → Bool) : Prop := ∀ c d : Char, 128 ≤ c.toNat → 128 ≤ d.toNat → p c = p d

theorem coarse_of_ascii {p : Char → Bool} (ascii : ∀ c, p c = true → c.toNat < 128) : Coarse p := by
  have other (c : Char) (beyond : 128 ≤ c.toNat) : p c = false := by
    rw [Bool.eq_false_iff]
    intro inside
    have := ascii c inside
    omega
  intro c d first second
  exact (other c first).trans (other d second).symm

theorem coarse_bne {a : Char} (ascii : a.toNat < 128) : Coarse (· != a) := by
  have other (c : Char) (beyond : 128 ≤ c.toNat) : (c != a) = true := by
    rw [bne_iff_ne]
    rintro rfl
    omega
  intro c d first second
  exact (other c first).trans (other d second).symm

/-- It finds in each byte of a character what it finds in the character. -/
theorem Coarse.of_mem {p : Char → Bool} (coarse : Coarse p) {c : Char} {b : UInt8}
    (part : b ∈ String.utf8EncodeChar c) : p (Char.ofUInt8 b) = p c := by
  rcases ofUInt8_of_mem part with same | ⟨beyond, far⟩
  · rw [same]
  · exact coarse _ _ far beyond

theorem takeWhile_encode {p : Char → Bool} (coarse : Coarse p) (cs : List Char) :
    (encode cs).takeWhile (p ∘ Char.ofUInt8) = encode (cs.takeWhile p) := by
  induction cs with
  | nil => rfl
  | cons c cs ih =>
    rw [encode_cons, List.takeWhile_cons]
    cases inside : p c with
    | true =>
      have all : ∀ b ∈ String.utf8EncodeChar c, (p ∘ Char.ofUInt8) b = true := fun b part =>
        (coarse.of_mem part).trans inside
      rw [List.takeWhile_append_of_pos all, ih, if_pos rfl, encode_cons]
    | false =>
      obtain ⟨b, bs, shown, _⟩ := encodeChar_eq_cons c
      have part : b ∈ String.utf8EncodeChar c := by simp [shown]
      have first : p (Char.ofUInt8 b) = false := (coarse.of_mem part).trans inside
      simp [shown, first]

end Bytes

end ImpToC
