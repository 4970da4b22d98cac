import KeyOrder.Proofs.Checked.Natural
import KeyOrder.Proofs.Decimal.Spelling

/-!
# KeyOrder.Proofs.Checked.Cursor

Reading with checked words. Positions, lengths and sizes are 64-bit words, and as everywhere in
`Checked` a sum, a difference or a slice that is out of range gives `none`; so does a size told by a
head that is no size. A payload is read by shifts, and a scale is negated and narrowed as a word.

From a cursor that `Fits` its buffer every reader gives what the decoder of the same name gives, and
leaves a cursor that fits (`compactInt_agrees`, `decimal_agrees`). `Agrees` is closed under
sequencing, so a reader of several parts is compared part by part.
-/

namespace KeyOrder

/-- A cursor that has not left its buffer, and a buffer whose length is that of a byte string in
memory. -/
structure Cursor.Fits (c : Cursor) : Prop where
  inside : c.position ≤ c.buffer.length
  sized : c.buffer.length < 2 ^ 63

namespace Checked

variable {α β : Type}

def Reader (α : Type) : Type := Cursor → Option (Except DecodeError α × Cursor)

namespace Reader

protected def pure (a : α) : Reader α := fun c => some (.ok a, c)

protected def bind (r : Reader α) (next : α → Reader β) : Reader β := fun c =>
  match r c with
  | none => none
  | some (.ok a, c') => next a c'
  | some (.error e, c') => some (.error e, c')

instance : Monad Reader where
  pure := Reader.pure
  bind := Reader.bind

def fail (e : DecodeError) : Reader α := fun c => some (.error e, c)

/-- What is worked out without reading. -/
def ofOption (x : Option α) : Reader α := fun c => x.map fun a => (.ok a, c)

/-- `r` never fails a check and does what `d` does. -/
def Agrees (r : Reader α) (d : Decoder α) : Prop :=
  ∀ c : Cursor, c.Fits → r c = some (d c) ∧ (d c).2.Fits

namespace Agrees

theorem pure (a : α) : Agrees (Pure.pure a) (Pure.pure a) := fun _ hc => ⟨rfl, hc⟩

theorem fail (e : DecodeError) : Agrees (Reader.fail e : Reader α) (Decoder.fail e) :=
  fun _ hc => ⟨rfl, hc⟩

theorem bind {r : Reader α} {d : Decoder α} {next : α → Reader β} {next' : α → Decoder β}
    (h : Agrees r d) (hnext : ∀ a, Agrees (next a) (next' a)) :
    Agrees (r >>= next) (d >>= next') := by
  intro c hc
  obtain ⟨hr, hfits⟩ := h c hc
  show Reader.bind r next c = some ((d >>= next') c) ∧ _
  rw [Reader.bind, hr, Decoder.bind_apply]
  cases hd : d c with
  | mk result c' =>
  rw [hd] at hfits
  cases result with
  | error e => exact ⟨rfl, hfits⟩
  | ok a => exact hnext a c' hfits

theorem ofOption {x : Option α} {a : α} {next : α → Reader β} {d : Decoder β} (hx : x = some a)
    (h : Agrees (next a) d) : Agrees (Reader.ofOption x >>= next) d := by
  subst hx
  exact h

end Agrees
end Reader

open Decoder (Parses)
open Reader (Agrees)

/-! ## Primitive reads -/

def byte : Reader UInt8 := fun c =>
  match c.buffer[c.position]? with
  | none => some (.error .unexpectedEnd, c)
  | some b => do
    let position ← word c.position
    let next ← add position 1
    some (.ok b, { c with position := next.toNat })

def slice (bytes : Bytes) (start stop : UInt64) : Option Bytes :=
  if start ≤ stop ∧ stop.toNat ≤ bytes.length then
    some ((bytes.take stop.toNat).drop start.toNat)
  else
    none

def take (n : UInt64) : Reader Bytes := fun c => do
  let length ← word c.buffer.length
  let position ← word c.position
  let available ← sub length position
  if available < n then
    some (.error (.bufferTooShort n.toNat available.toNat), c)
  else do
    let stop ← add position n
    let bytes ← slice c.buffer position stop
    some (.ok bytes, { c with position := stop.toNat })

/-- A buffer with `bytes` in place of all that it has from `start` on. -/
def overwrite (buffer bytes : Bytes) (start : UInt64) : Option Bytes :=
  if start.toNat + bytes.length = buffer.length then
    some (buffer.take start.toNat ++ bytes)
  else
    none

/-- The next `n` bytes, copied over `n` zeros. -/
def array (n : UInt64) : Reader Bytes := do
  let bytes ← take n
  Reader.ofOption (overwrite (List.replicate n.toNat 0) bytes 0)

def skip (n : UInt64) : Reader Unit := do
  let _ ← take n
  pure ()

def remaining (c : Cursor) : Option UInt64 := do
  let length ← word c.buffer.length
  let position ← word c.position
  sub length position

def rest (c : Cursor) : Option Bytes := do
  let length ← word c.buffer.length
  let position ← word c.position
  slice c.buffer position length

def signedByte : Reader Int8 := do
  let b ← byte
  pure b.toInt8

/-- A cursor that fits has words for its position, the length of its buffer and what is left. -/
theorem words_of_fits {c : Cursor} (hc : c.Fits) :
    ∃ length position available : UInt64, word c.buffer.length = some length ∧
      word c.position = some position ∧ sub length position = some available ∧
      length.toNat = c.buffer.length ∧ position.toNat = c.position ∧
      available.toNat = c.remaining := by
  obtain ⟨hinside, hsized⟩ := hc
  obtain ⟨length, hword, hlength⟩ := word_toNat (show c.buffer.length < 2 ^ 64 by omega)
  obtain ⟨position, hword', hposition⟩ := word_toNat (show c.position < 2 ^ 64 by omega)
  obtain ⟨available, hsub, havailable⟩ := sub_toNat (show position.toNat ≤ length.toNat by omega)
  rw [hlength, hposition] at havailable
  exact ⟨length, position, available, hword, hword', hsub, hlength, hposition, havailable⟩

theorem byte_agrees : Agrees byte Decoder.byte := by
  intro c hc
  obtain ⟨-, position, -, -, hword, -, -, hposition, -⟩ := words_of_fits hc
  obtain ⟨hinside, hsized⟩ := hc
  unfold byte Decoder.byte
  cases hget : c.buffer[c.position]? with
  | none =>
    have hrest : c.rest = [] := List.drop_eq_nil_of_le (List.getElem?_eq_none_iff.mp hget)
    rw [hrest]
    exact ⟨rfl, hinside, hsized⟩
  | some b =>
    obtain ⟨hlt, hb⟩ := List.getElem?_eq_some_iff.mp hget
    have hrest : c.rest = b :: c.buffer.drop (c.position + 1) := by
      rw [← hb]
      exact List.drop_eq_getElem_cons hlt
    have hroom : position.toNat + (1 : UInt64).toNat < 2 ^ 64 := by
      rw [UInt64.toNat_one]
      omega
    obtain ⟨next, hadd, hnext⟩ := add_toNat hroom
    rw [hposition, UInt64.toNat_one] at hnext
    simp only [hword, hadd, hrest, Option.bind_eq_bind, Option.bind_some, hnext]
    exact ⟨rfl, hlt, hsized⟩

theorem slice_eq {bytes : Bytes} {start stop : UInt64} (hstart : start.toNat ≤ stop.toNat)
    (hstop : stop.toNat ≤ bytes.length) :
    slice bytes start stop = some ((bytes.take stop.toNat).drop start.toNat) :=
  if_pos ⟨UInt64.le_iff_toNat_le.mpr hstart, hstop⟩

theorem take_agrees (n : UInt64) : Agrees (take n) (Decoder.take n.toNat) := by
  intro c hc
  obtain ⟨length, position, available, hword, hword', hsub, hlength, hposition, havailable⟩ :=
    words_of_fits hc
  obtain ⟨hinside, hsized⟩ := hc
  unfold take Decoder.take
  simp only [hword, hword', hsub, Option.bind_eq_bind, Option.bind_some]
  by_cases hshort : available < n
  · have hlt : c.remaining < n.toNat := havailable ▸ UInt64.lt_iff_toNat_lt.mp hshort
    rw [if_pos hshort, if_neg (not_le.mpr hlt), havailable]
    exact ⟨rfl, hinside, hsized⟩
  · have hle : n.toNat ≤ c.remaining := by
      rw [UInt64.lt_iff_toNat_lt] at hshort
      omega
    have hroom : c.position + n.toNat ≤ c.buffer.length := by
      unfold Cursor.remaining at hle
      omega
    obtain ⟨stop, hadd, hstop⟩ := add_toNat (show position.toNat + n.toNat < 2 ^ 64 by omega)
    have hslice : slice c.buffer position stop = some (c.rest.take n.toNat) := by
      rw [slice_eq (by omega) (by omega), hstop, hposition, Cursor.rest, List.drop_take,
        Nat.add_sub_cancel_left]
    rw [if_neg hshort, if_pos hle, hadd, Option.bind_some, hslice, Option.bind_some, hstop,
      hposition]
    exact ⟨rfl, hroom, hsized⟩

theorem array_agrees (n : UInt64) : Agrees (array n) (Decoder.take n.toNat) := by
  intro c hc
  obtain ⟨htake, hfits⟩ := take_agrees n c hc
  refine ⟨?_, hfits⟩
  show Reader.bind (take n) _ c = _
  rw [Reader.bind, htake]
  cases hd : Decoder.take n.toNat c with
  | mk result c' =>
  cases result with
  | error e => rfl
  | ok bytes =>
    obtain ⟨-, -, -, -, -, hlength⟩ := Parses.take n.toNat c bytes c' hd
    have hover : overwrite (List.replicate n.toNat 0) bytes 0 = some bytes := by
      apply if_pos
      rw [List.length_replicate, hlength, UInt64.toNat_zero, Nat.zero_add]
    show Reader.ofOption _ c' = _
    rw [hover]
    rfl

theorem skip_agrees (n : UInt64) : Agrees (skip n) (Decoder.skip n.toNat) :=
  (take_agrees n).bind fun _ => .pure ()

theorem remaining_eq {c : Cursor} (hc : c.Fits) :
    ∃ available, remaining c = some available ∧ available.toNat = c.remaining := by
  obtain ⟨length, position, available, hword, hword', hsub, -, -, havailable⟩ := words_of_fits hc
  refine ⟨available, ?_, havailable⟩
  simp only [remaining, hword, hword', hsub, Option.bind_eq_bind, Option.bind_some]

theorem rest_eq {c : Cursor} (hc : c.Fits) : rest c = some c.rest := by
  obtain ⟨length, position, -, hword, hword', -, hlength, hposition, -⟩ := words_of_fits hc
  have hinside := hc.inside
  simp only [rest, hword, hword', Option.bind_eq_bind, Option.bind_some]
  rw [slice_eq (by omega) (by omega), hlength, hposition, List.take_length, Cursor.rest]

theorem signedByte_agrees : Agrees signedByte Decoder.signedByte :=
  byte_agrees.bind fun _ => .pure _

/-! ## Compact integers -/

/-- A 32-bit difference, as a size. -/
def sizeFrom (base : Int32) (head : Int8) : Option UInt64 :=
  let size := base.toInt - head.toInt
  if 0 ≤ size ∧ size < 2 ^ 31 then some (UInt64.ofNat size.toNat) else none

def size (head : Int8) : Option UInt64 :=
  if -112 ≤ head then some 1
  else if head < -120 then sizeFrom (-119) head
  else sizeFrom (-111) head

/-- The bytes shifted into a signed word, one after another. -/
def payloadWord (payload : Bytes) : Int64 :=
  payload.foldl (fun shifted b => (shifted <<< 8) ||| Int64.ofNat b.toNat) 0

def compactInt : Reader Int64 := do
  let head ← signedByte
  let size ← Reader.ofOption (size head)
  if size = 1 then
    pure head.toInt64
  else do
    let length ← Reader.ofOption (sub size 1)
    let payload ← take length
    pure (if CompactInt.isNegative head then ~~~payloadWord payload else payloadWord payload)

theorem shift_or (n : Nat) (b : UInt8) :
    (Int64.ofNat n <<< 8) ||| Int64.ofNat b.toNat = Int64.ofNat (256 * n + b.toNat) := by
  have hb : b.toNat < 2 ^ 8 := b.toNat_lt
  have hshift : (Int64.ofNat n <<< 8).toBitVec.toNat = (n % 2 ^ 56) <<< 8 := by
    simp [Nat.shiftLeft_eq]
    omega
  have hbyte : (Int64.ofNat b.toNat).toBitVec.toNat = b.toNat := by simp
  apply Int64.toBitVec_inj.mp
  apply BitVec.eq_of_toNat_eq
  rw [Int64.toBitVec_or, BitVec.toNat_or, hshift, hbyte, ← Nat.shiftLeft_add_eq_or_of_lt hb,
    Nat.shiftLeft_eq]
  simp
  omega

/-- Bits that are shifted out of the word are those that a number modulo `2^64` has not. -/
theorem payloadWord_eq (payload : Bytes) : payloadWord payload = Int64.ofNat payload.value := by
  induction payload using List.reverseRecOn with
  | nil => rfl
  | append_singleton payload b ih =>
    rw [payloadWord, List.foldl_append, ← payloadWord, ih, Bytes.value_append_byte]
    exact shift_or (Bytes.value payload) b

theorem size_eq (head : Int8) :
    ∃ n, size head = some n ∧ n.toNat = CompactInt.size head := by
  have hleast : -128 ≤ head.toInt := head.le_toInt
  unfold size CompactInt.size
  by_cases hinline : -112 ≤ head
  · rw [if_pos hinline, if_pos hinline]
    exact ⟨1, rfl, rfl⟩
  have hlt : head.toInt < -112 := by
    rw [Int8.le_iff_toInt_le] at hinline
    exact not_le.mp hinline
  rw [if_neg hinline, if_neg hinline]
  by_cases hneg : head < -120
  · have hbase : (-119 : Int32).toInt = -119 := by decide
    have hlt' : head.toInt < -120 := Int8.lt_iff_toInt_lt.mp hneg
    rw [if_pos hneg, if_pos hneg, sizeFrom, hbase, if_pos (by omega)]
    exact ⟨_, rfl, Nat.mod_eq_of_lt (by omega)⟩
  · have hbase : (-111 : Int32).toInt = -111 := by decide
    rw [if_neg hneg, if_neg hneg, sizeFrom, hbase, if_pos (by omega)]
    exact ⟨_, rfl, Nat.mod_eq_of_lt (by omega)⟩

theorem compactInt_agrees : Agrees compactInt CompactInt.read := by
  apply signedByte_agrees.bind
  intro head
  obtain ⟨n, hn, hsize⟩ := size_eq head
  apply Agrees.ofOption hn
  by_cases hone : CompactInt.size head = 1
  · have hword : n = 1 := UInt64.toNat_inj.mp (hsize.trans hone)
    rw [if_pos hword, if_pos hone]
    exact .pure _
  · obtain ⟨length, hlength, -⟩ := CompactInt.head_cases hone
    have hword : n ≠ 1 := by
      rintro rfl
      exact hone hsize.symm
    have hle : (1 : UInt64).toNat ≤ n.toNat := by
      rw [UInt64.toNat_one]
      omega
    have hrest : (n - 1).toNat = CompactInt.size head - 1 := by
      rw [UInt64.toNat_sub_of_le _ _ (UInt64.le_iff_toNat_le.mpr hle), hsize, UInt64.toNat_one]
    rw [if_neg hword, if_neg hone, ← hrest]
    apply Agrees.ofOption (sub_eq hle)
    apply (take_agrees _).bind
    intro payload
    rw [payloadWord_eq]
    exact .pure _

/-! ## Decimals -/

def negate? (v : Int64) : Option Int64 := if v = Int64.minValue then none else some (-v)

def toInt32? (v : Int64) : Option Int32 :=
  if Int32.minValue.toInt64 ≤ v ∧ v ≤ Int32.maxValue.toInt64 then some v.toInt32 else none

def significand (compact : Bool) (unscaled : Int64) : Reader Significand :=
  if compact then
    if unscaled < 0 then
      Reader.fail (.negativeUnscaled unscaled)
    else
      pure (.compact unscaled.toUInt64)
  else if unscaled < 0 then
    Reader.fail (.invalidLength unscaled)
  else do
    let bytes ← take unscaled.toUInt64
    pure (.extended bytes)

def decimal : Reader (Option EncodedDecimal) := do
  let header ← byte
  if header = EncodedDecimal.nullHeader then
    pure none
  else do
    let scale ← compactInt
    match (negate? scale).bind toInt32? with
    | none => Reader.fail (.scaleOutOfRange scale)
    | some exponent => do
      let unscaled ← compactInt
      let significand ← significand (header &&& EncodedDecimal.compactFlag != 0) unscaled
      pure (some ⟨header &&& EncodedDecimal.plusFlag != 0, exponent, significand⟩)

theorem exponent_eq (scale : Int64) :
    (negate? scale).bind toInt32? = EncodedDecimal.exponentOfScale? scale := by
  unfold negate?
  by_cases hleast : scale = Int64.minValue
  · rw [if_pos hleast, hleast]
    rfl
  have hlower : Int64.minValue.toInt < scale.toInt := by
    have hle := Int64.minValue_le scale
    rw [Int64.le_iff_toInt_le] at hle
    exact lt_of_le_of_ne hle fun h => hleast (Int64.toInt_inj.mp h.symm)
  have hmin : Int64.minValue.toInt = -2 ^ 63 := by decide
  have hupper : scale.toInt < 2 ^ 63 := scale.toInt_lt
  have hneg : (-scale).toInt = -scale.toInt := by
    rw [Int64.toInt_neg]
    exact Int.bmod_eq_of_le (by omega) (by omega)
  have hnarrow : (-scale).toInt32 = Int32.ofInt (-scale.toInt) := by
    rw [← hneg]
    exact (Int32.ofInt_int64ToInt _).symm
  rw [if_neg hleast, Option.bind_some, toInt32?, hnarrow]
  simp only [EncodedDecimal.exponentOfScale?, Int64.le_iff_toInt_le, Int32.toInt_toInt64, hneg]

theorem significand_agrees (compact : Bool) (unscaled : Int64) :
    Agrees (significand compact unscaled) (EncodedDecimal.readSignificand compact unscaled) := by
  unfold significand EncodedDecimal.readSignificand
  split_ifs with hcompact hneg hneg
  · exact .fail _
  · exact .pure _
  · exact .fail _
  · have hword : unscaled.toUInt64.toNat = unscaled.toInt.toNat :=
      Int64.toNat_toUInt64_of_le (Int64.not_lt.mp hneg)
    rw [← hword]
    exact (take_agrees _).bind fun _ => .pure _

theorem decimal_agrees : Agrees decimal EncodedDecimal.read := by
  apply byte_agrees.bind
  intro header
  by_cases hnull : header = EncodedDecimal.nullHeader
  · rw [if_pos hnull, if_pos hnull]
    exact .pure none
  rw [if_neg hnull, if_neg hnull]
  apply compactInt_agrees.bind
  intro scale
  rw [exponent_eq]
  cases EncodedDecimal.exponentOfScale? scale with
  | none => exact .fail _
  | some exponent =>
    apply compactInt_agrees.bind
    intro unscaled
    exact (significand_agrees _ unscaled).bind fun _ => .pure _

end Checked
end KeyOrder
