import BaseNx.Lib.UngetDecoder

/-!
# Keyboard and segment-LCD codecs

`libs/libc/misc`: keys that are released and special keys, and the actions of a segment LCD, are
sent as escape sequences among plain characters, and `kbd_decode` and `slcd_decode` read them back.
-/

namespace BaseNx.Codec

open Lib

def ASCII_ESC : UInt8 := 27

/-- The character `[`. -/
def BRACKET : UInt8 := 91

/-! ## The keyboard -/

def FIRST_KEYCODE : UInt8 := 1

def LAST_KEYCODE : UInt8 := 87

def KBD_RELEASE : UInt8 := 1

def KBD_SPECPRESS : UInt8 := 2

def KBD_SPECREL : UInt8 := 3

/-- `kbd_encode`: the bytes that are put into the stream. -/
def kbdEncode (keycode terminator : UInt8) : List UInt8 :=
  [ASCII_ESC, BRACKET, keycode, terminator]

def kbdRelease (ch : UInt8) : List UInt8 := kbdEncode ch (97 + KBD_RELEASE)

def kbdSpecpress (keycode : UInt8) : List UInt8 := kbdEncode keycode (97 + KBD_SPECPRESS)

def kbdSpecrel (keycode : UInt8) : List UInt8 := kbdEncode keycode (97 + KBD_SPECREL)

/-- `kbd_decode` behind its un-get buffer. -/
def kbdParse (s : List UInt8) : Parsed UInt8 (UInt8 × UInt8) :=
  getByte [] s fun esc s =>
  if esc ≠ ASCII_ESC then ⟨none, [esc], s⟩ else
  getByte [esc] s fun bracket s =>
  if bracket ≠ BRACKET then ⟨none, [esc, bracket], s⟩ else
  getByte [esc, bracket] s fun code s =>
  if code < FIRST_KEYCODE ∨ LAST_KEYCODE < code then ⟨none, [esc, bracket, code], s⟩ else
  getByte [esc, bracket, code] s fun term s =>
  if term < 97 + KBD_RELEASE ∨ 97 + KBD_SPECREL < term then ⟨none, [esc, bracket, code, term], s⟩
  else ⟨some (term - 97, code), [esc, bracket, code, term], s⟩

/-- The key events that are sent as sequences. -/
inductive KeyEvent
  | release (ch : UInt8)
  | specpress (keycode : UInt8)
  | specrel (keycode : UInt8)

namespace KeyEvent

def encode : KeyEvent → List UInt8
  | release ch => kbdRelease ch
  | specpress keycode => kbdSpecpress keycode
  | specrel keycode => kbdSpecrel keycode

def kind : KeyEvent → UInt8
  | release _ => KBD_RELEASE
  | specpress _ => KBD_SPECPRESS
  | specrel _ => KBD_SPECREL

def code : KeyEvent → UInt8
  | release code | specpress code | specrel code => code

/-- What `kbd_decode` is to return and to store. -/
def result (e : KeyEvent) : UInt8 × UInt8 := (e.kind, e.code)

/-- Also a key that is released has to have the code of a special key. -/
def InRange (e : KeyEvent) : Prop := ¬ (e.code < FIRST_KEYCODE ∨ LAST_KEYCODE < e.code)

end KeyEvent

theorem kbdParse_encode (e : KeyEvent) (s : List UInt8) :
    (e.InRange → kbdParse (e.encode ++ s) = ⟨some e.result, e.encode, s⟩) ∧
      (¬ e.InRange → (kbdParse (e.encode ++ s)).special = none) := by
  have hencode : e.encode = [ASCII_ESC, BRACKET, e.code, 97 + e.kind] := by cases e <;> rfl
  have hkind : ¬ (97 + e.kind < 97 + KBD_RELEASE ∨ 97 + KBD_SPECREL < 97 + e.kind) ∧
      97 + e.kind - 97 = e.kind := by
    cases e <;> dsimp only [KeyEvent.kind] <;> decide
  constructor
  · intro h
    simp [hencode, kbdParse, getByte, hkind, if_neg h, KeyEvent.result]
  · intro h
    simp [hencode, kbdParse, getByte, if_pos (not_not.1 h)]

theorem inRange_of_kbdParse (e : KeyEvent) (s rest : List UInt8)
    (h : kbdParse (e.encode ++ s) = ⟨some e.result, e.encode, rest⟩) : e.InRange := by
  by_contra hbad
  have hnone := (kbdParse_encode e s).2 hbad
  rw [h] at hnone
  exact nomatch hnone

/-- Characters and key events are all decoded if and only if every key that is released has a code
of the special keys. -/
theorem keyboard_round_trip (es : List (UInt8 ⊕ KeyEvent))
    (hes : ∀ ch, .inl ch ∈ es → ch ≠ ASCII_ESC) :
    decodeAll kbdParse (es.length + 1) [] (es.flatMap (Sum.elim ([·]) KeyEvent.encode)) =
        some (es.map (Sum.map id fun e => (e.result, e.encode))) ↔
      ∀ e, .inr e ∈ es → e.InRange :=
  decodeAll_encoded kbdParse rfl (fun _ _ h => if_pos h)
    (fun e s => (kbdParse_encode e s).1) inRange_of_kbdParse es hes

/-- A character, the release of the key 65 and a special key. -/
theorem keyboard_round_trip_sample :
    let es : List (UInt8 ⊕ KeyEvent) := [.inl 97, .inr (.release 65), .inr (.specpress 87)]
    decodeAll kbdParse 4 [] (es.flatMap (Sum.elim ([·]) KeyEvent.encode)) =
      some (es.map (Sum.map id fun e => (e.result, e.encode))) :=
  (keyboard_round_trip [.inl 97, .inr (.release 65), .inr (.specpress 87)]
    (by simp; decide)).2 (by simp [KeyEvent.InRange, KeyEvent.code]; decide)

/-- The release of the key `a` is decoded as four characters. -/
theorem release_decoded_as_presses :
    decodeAll kbdParse 5 [] (kbdRelease 97) = some [.inl 27, .inl 91, .inl 97, .inl 98] := by
  decide

/-! ## The segment LCD -/

/-- `enum slcdcode_e` -/
inductive SlcdCode
  | normal | fwddel | backdel | erase | eraseeol | clear | home | «end» | left | right | up | down
  | pageup | pagedown | blinkstart | blinkend | blinkoff
  deriving DecidableEq

def SlcdCode.value (code : SlcdCode) : UInt8 := .ofNat code.ctorIdx

/-- `slcd_nibble` of the encoder. -/
def putNibble (binary : UInt8) : UInt8 :=
  let binary := binary &&& 0x0f
  if binary ≤ 9 then 48 + binary else 97 + binary

/-- The codes that are sent with their count. -/
def SlcdCode.counted : SlcdCode → Bool
  | fwddel | backdel | erase | left | right | up | down | pageup | pagedown => true
  | _ => false

def slcdPut3 (slcdcode : UInt8) : List UInt8 := [ASCII_ESC, BRACKET, 65 + slcdcode]

def slcdPut5 (slcdcode count : UInt8) : List UInt8 :=
  [ASCII_ESC, BRACKET, putNibble (count >>> 4), putNibble count, 65 + slcdcode]

def slcdEncode : SlcdCode × UInt8 → List UInt8
  | (code, count) =>
    if code = .normal then []
    else if code.counted then slcdPut5 code.value count
    else slcdPut3 code.value

/-- `IS_HEX` -/
def isHex (ch : UInt8) : Bool := 48 ≤ ch ∧ ch ≤ 57 ∨ 97 ≤ ch ∧ ch ≤ 102

/-- `slcd_nibble` of the decoder. -/
def getNibble (ascii : UInt8) : UInt8 := if 48 ≤ ascii ∧ ascii ≤ 57 then ascii - 48 else ascii - 97

/-- The check of `CODE_RETURN` against the first and the last code. -/
def isCode (ch : UInt8) : Bool := 1 ≤ ch - 65 ∧ ch - 65 ≤ 16

/-- `slcd_decode` behind its un-get buffer. -/
def slcdParse (s : List UInt8) : Parsed UInt8 (UInt8 × UInt8) :=
  getByte [] s fun esc s =>
  if esc ≠ ASCII_ESC then ⟨none, [esc], s⟩ else
  getByte [esc] s fun bracket s =>
  if bracket ≠ BRACKET then ⟨none, [esc, bracket], s⟩ else
  getByte [esc, bracket] s fun counth s =>
  if ¬ isHex counth then
    ⟨if isCode counth then some (counth - 65, 0) else none, [esc, bracket, counth], s⟩
  else
    getByte [esc, bracket, counth] s fun countl s =>
    -- a byte that is no digit is not stored
    if ¬ isHex countl then ⟨none, [esc, bracket, counth], s⟩ else
    getByte [esc, bracket, counth, countl] s fun code s =>
    ⟨if isCode code then some (code - 65, getNibble counth <<< 4 ||| getNibble countl) else none,
      [esc, bracket, counth, countl, code], s⟩

/-- The actions that are decoded: both digits of a count are decimal ones. -/
def actionOk (a : SlcdCode × UInt8) : Prop :=
  a.1 ≠ .normal ∧ if a.1.counted then a.2 >>> 4 ≤ 9 ∧ a.2 &&& 0x0f ≤ 9 else a.2 = 0

instance : DecidablePred actionOk := fun _ => inferInstanceAs (Decidable (_ ∧ _))

/-- The digits of such a count are read back, and those of other counts are no digits. -/
theorem getNibble_putNibble (count : UInt8) :
    (isHex (putNibble (count >>> 4)) = true ∧ isHex (putNibble count) = true ↔
      count >>> 4 ≤ 9 ∧ count &&& 0x0f ≤ 9) ∧
    (count >>> 4 ≤ 9 ∧ count &&& 0x0f ≤ 9 →
      getNibble (putNibble (count >>> 4)) <<< 4 ||| getNibble (putNibble count) = count) := by
  obtain ⟨⟨n⟩⟩ := count
  revert n
  decide +kernel

/-- A code is not taken for a digit, and it is read back. -/
theorem isCode_value {code : SlcdCode} (h : code ≠ .normal) :
    isHex (65 + code.value) = false ∧ isCode (65 + code.value) = true ∧
      65 + code.value - 65 = code.value := by
  cases code with
  | normal => exact absurd rfl h
  | _ => decide

theorem slcdParse_encode (a : SlcdCode × UInt8) (s : List UInt8) (h : actionOk a) :
    slcdParse (slcdEncode a ++ s) = ⟨some (a.1.value, a.2), slcdEncode a, s⟩ := by
  obtain ⟨code, count⟩ := a
  obtain ⟨hnormal, hcount⟩ := h
  obtain ⟨hhex, hcode, hvalue⟩ := isCode_value hnormal
  dsimp only at hnormal hcount
  cases hc : code.counted with
  | true =>
    rw [if_pos hc] at hcount
    obtain ⟨hh, hl⟩ := (getNibble_putNibble count).1.2 hcount
    have hboth := (getNibble_putNibble count).2 hcount
    simp [slcdEncode, slcdPut5, slcdParse, getByte, hnormal, hc, hh, hl, hcode, hvalue, hboth]
  | false =>
    rw [hc, if_neg Bool.false_ne_true] at hcount
    simp [slcdEncode, slcdPut3, slcdParse, getByte, hnormal, hc, hhex, hcode, hvalue, hcount]

/-- The stream goes on with a sequence whose first digit is followed by a byte that is no digit. -/
def HalfCount (s : List UInt8) : Prop :=
  ∃ h l rest, isHex h = true ∧ isHex l = false ∧ s = [ASCII_ESC, BRACKET, h, l] ++ rest

theorem slcdParse_keeps (s : List UInt8) (hs : ¬ HalfCount s) : Keeps (slcdParse s) s := by
  apply getByte_keeps
  rintro esc s rfl
  split
  · exact ⟨rfl, nofun⟩
  apply getByte_keeps
  rintro bracket s rfl
  split
  · exact ⟨rfl, nofun⟩
  apply getByte_keeps
  rintro counth s rfl
  split
  · exact ⟨rfl, nofun⟩
  apply getByte_keeps
  rintro countl s rfl
  split
  · -- the byte that is dropped
    refine absurd ⟨counth, countl, s, ?_⟩ hs
    simp_all
  apply getByte_keeps
  intro code s _
  exact ⟨rfl, nofun⟩

/-- A sequence with half a count is put back without the byte behind its digit. -/
theorem slcdParse_half {h l : UInt8} (rest : List UInt8) (hh : isHex h = true)
    (hl : isHex l = false) :
    slcdParse ([ASCII_ESC, BRACKET, h, l] ++ rest) = ⟨none, [ASCII_ESC, BRACKET, h], rest⟩ := by
  simp [slcdParse, getByte, hh, hl]

theorem slcdParse_takes (s : List UInt8) : Takes (slcdParse s) s := by
  by_cases hs : HalfCount s
  · obtain ⟨h, l, rest, hh, hl, rfl⟩ := hs
    rw [slcdParse_half rest hh hl]
    exact ⟨by simp, nofun⟩
  · exact (slcdParse_keeps s hs).takes

theorem actionOk_of_slcdParse (a : SlcdCode × UInt8) (s rest : List UInt8)
    (h : slcdParse (slcdEncode a ++ s) = ⟨some (a.1.value, a.2), slcdEncode a, rest⟩) :
    actionOk a := by
  obtain ⟨code, count⟩ := a
  by_cases hnormal : code = .normal
  · -- nothing is sent, and no call returns an action without a byte
    have htakes := (slcdParse_takes (slcdEncode (code, count) ++ s)).2
    rw [h] at htakes
    exact nomatch (htakes (by simp [slcdEncode, hnormal])).2
  · refine ⟨hnormal, ?_⟩
    obtain ⟨hhex, hcode, hvalue⟩ := isCode_value hnormal
    dsimp only
    cases hc : code.counted with
    | true =>
      rw [if_pos rfl, ← (getNibble_putNibble count).1]
      have hh : isHex (putNibble (count >>> 4)) = true := by
        by_contra hh
        simp [slcdEncode, slcdPut5, slcdParse, getByte, hnormal, hc, hh] at h
      refine ⟨hh, ?_⟩
      by_contra hl
      simp [slcdEncode, slcdPut5, slcdParse, getByte, hnormal, hc, hh, hl] at h
    | false =>
      simp_all [slcdEncode, slcdPut3, slcdParse, getByte]

/-- Characters and actions are all decoded if and only if no count has a hexadecimal digit above
nine. -/
theorem slcd_round_trip (es : List (UInt8 ⊕ SlcdCode × UInt8))
    (hes : ∀ ch, .inl ch ∈ es → ch ≠ ASCII_ESC) :
    decodeAll slcdParse (es.length + 1) [] (es.flatMap (Sum.elim ([·]) slcdEncode)) =
        some (es.map (Sum.map id fun a => ((a.1.value, a.2), slcdEncode a))) ↔
      ∀ a, .inr a ∈ es → actionOk a :=
  decodeAll_encoded slcdParse rfl (fun _ _ h => if_pos h) slcdParse_encode
    actionOk_of_slcdParse es hes

/-- A character, a move by 37 and an action without count. -/
theorem slcd_round_trip_sample :
    let es : List (UInt8 ⊕ SlcdCode × UInt8) := [.inl 65, .inr (.left, 0x25), .inr (.clear, 0)]
    decodeAll slcdParse 4 [] (es.flatMap (Sum.elim ([·]) slcdEncode)) =
      some (es.map (Sum.map id fun a => ((a.1.value, a.2), slcdEncode a))) :=
  (slcd_round_trip [.inl 65, .inr (.left, 0x25), .inr (.clear, 0)]
    (by simp; decide)).2 (by simp; decide)

/-- The digit ten is sent as `k`, which the decoder does not know. -/
theorem count_of_ten_lost :
    slcdEncode (.left, 10) = [27, 91, 48, 107, 73] ∧
      decodeAll slcdParse 5 [] (slcdEncode (.left, 10)) =
        some [.inl 27, .inl 91, .inl 48, .inl 73] := by
  decide

/-! ## No byte is lost -/

theorem kbdParse_keeps (s : List UInt8) : Keeps (kbdParse s) s := by
  apply getByte_keeps
  intro esc s _
  split
  · exact ⟨rfl, nofun⟩
  apply getByte_keeps
  intro bracket s _
  split
  · exact ⟨rfl, nofun⟩
  apply getByte_keeps
  intro code s _
  split
  · exact ⟨rfl, nofun⟩
  apply getByte_keeps
  intro term s _
  split <;> exact ⟨rfl, nofun⟩

/-- `kbd_decode` loses no byte, and `slcd_decode` loses none if and only if none of its calls finds
a byte that is no digit behind the first digit of a sequence. -/
theorem decoders_lose_nothing (s : List UInt8) :
    Lossless kbdParse s ∧
      (Lossless slcdParse s ↔ ∀ t, Starts slcdParse s t → ¬ HalfCount t) := by
  rw [lossless_iff fun t => (kbdParse_keeps t).takes, lossless_iff slcdParse_takes]
  refine ⟨fun t _ => (kbdParse_keeps t).1, forall₂_congr fun t _ => ⟨?_, ?_⟩⟩
  · rintro hkeep ⟨h, l, rest, hh, hl, rfl⟩
    rw [slcdParse_half rest hh hl] at hkeep
    simpa using congrArg List.length hkeep
  · exact fun hs => (slcdParse_keeps t hs).1

/-- Of five bytes one is missing. -/
theorem byte_after_digit_lost :
    decodeAll slcdParse 5 [] [27, 91, 49, 120, 65] =
      some [.inl 27, .inl 91, .inl 49, .inl 65] := by
  decide

end BaseNx.Codec
