import Mathlib.Tactic

/-!
# Decoders with an un-get buffer

The bytes that a parser had read when it failed are put back into a buffer, from which the next
calls return them one by one.
-/

namespace BaseNx.Lib

variable {β ρ κ : Type}

/-- A special result or none, the bytes that are kept and the rest of the stream. -/
structure Parsed (β ρ : Type) where
  special : Option ρ
  bytes : List β
  rest : List β

/-- Reads one more byte; at the end of the stream the bytes read so far are put back. -/
def getByte (buf s : List β) (next : β → List β → Parsed β ρ) : Parsed β ρ :=
  match s with
  | [] => ⟨none, buf, []⟩
  | ch :: s => next ch s

variable (parse : List β → Parsed β ρ)

/-- One call with the un-get buffer and the stream: a byte, a special result with the bytes that it
was parsed from, or the end of the stream. -/
def decode : (buf s : List β) → Option ((β ⊕ ρ × List β) × List β × List β)
  | ch :: buf, s => some (.inl ch, buf, s)
  | [], s =>
    match parse s with
    | ⟨some r, bytes, rest⟩ => some (.inr (r, bytes), [], rest)
    | ⟨none, ch :: buf, rest⟩ => some (.inl ch, buf, rest)
    | ⟨none, [], _⟩ => none

/-- Calls up to the end of the stream, at most so many. -/
def decodeAll : (calls : Nat) → (buf s : List β) → Option (List (β ⊕ ρ × List β))
  | 0, _, _ => none
  | calls + 1, buf, s =>
    match decode parse buf s with
    | none => some []
    | some (r, buf, s) => (decodeAll calls buf s).map (r :: ·)

/-- The stream is decoded up to its end, and the results were parsed from all of its bytes. -/
def Lossless (s : List β) : Prop :=
  ∃ outs, decodeAll parse (s.length + 1) [] s = some outs ∧
    outs.flatMap (Sum.elim ([·]) Prod.snd) = s

variable {parse} {buf buf' s s' : List β} {r : β ⊕ ρ × List β} {calls : Nat}

theorem decodeAll_call (h : decode parse buf s = some (r, buf', s')) :
    decodeAll parse (calls + 1) buf s = (decodeAll parse calls buf' s').map (r :: ·) := by
  rw [decodeAll, h]

/-- A special result of a call is one of the parser. -/
theorem parse_of_decode {k : ρ} {bytes : List β}
    (h : decode parse [] s = some (.inr (k, bytes), buf', s')) :
    ∃ rest, parse s = ⟨some k, bytes, rest⟩ := by
  rw [decode] at h
  split at h
  · rename_i hp
    obtain ⟨⟨rfl, rfl⟩, -⟩ : (_ = k ∧ _ = bytes) ∧ _ := by simpa using h
    exact ⟨_, hp⟩
  · simp at h
  · exact nomatch h

variable (parse) in
/-- Bytes and sequences are all decoded if and only if every sequence alone is parsed up to its
end. -/
theorem decodeAll_encoded {encode : κ → List β} {result : κ → ρ} {escape : β} {Q : κ → Prop}
    (hnil : parse [] = ⟨none, [], []⟩)
    (hchar : ∀ ch s, ch ≠ escape → parse (ch :: s) = ⟨none, [ch], s⟩)
    (hcoded : ∀ k s, Q k → parse (encode k ++ s) = ⟨some (result k), encode k, s⟩)
    (hbad : ∀ k s rest, parse (encode k ++ s) = ⟨some (result k), encode k, rest⟩ → Q k)
    (es : List (β ⊕ κ)) (hes : ∀ ch, .inl ch ∈ es → ch ≠ escape) :
    decodeAll parse (es.length + 1) [] (es.flatMap (Sum.elim ([·]) encode)) =
        some (es.map (Sum.map id fun k => (result k, encode k))) ↔
      ∀ k, .inr k ∈ es → Q k := by
  induction es with
  | nil => simp [decodeAll, decode, hnil]
  | cons e es ih =>
    have htail := ih fun ch hch => hes ch (List.mem_cons_of_mem e hch)
    rw [List.flatMap_cons, List.length_cons]
    generalize es.flatMap (Sum.elim ([·]) encode) = s at htail ⊢
    cases e with
    | inl ch =>
      have hcall : decode parse [] (ch :: s) = some (.inl ch, [], s) := by
        simp [decode, hchar ch s (hes ch List.mem_cons_self)]
      simpa [decodeAll_call hcall] using htail
    | inr k =>
      by_cases hk : Q k
      · have hcall : decode parse [] (encode k ++ s) =
            some (.inr (result k, encode k), [], s) := by
          simp [decode, hcoded k s hk]
        simpa [decodeAll_call hcall, hk] using htail
      · refine iff_of_false (fun h => ?_) fun h => hk (h k List.mem_cons_self)
        rw [decodeAll] at h
        split at h
        · exact nomatch h
        · rename_i r buf' s' hcall
          obtain ⟨outs, -, houts⟩ := Option.map_eq_some_iff.1 h
          obtain ⟨rfl, -⟩ := List.cons.inj houts
          obtain ⟨rest, hp⟩ := parse_of_decode hcall
          exact hk (hbad k s rest hp)

/-! ## What is lost -/

/-- The stream where a call of the parser begins; the bytes put back are returned in between. -/
inductive Starts (parse : List β → Parsed β ρ) : List β → List β → Prop
  | here (s : List β) : Starts parse s s
  | next {s t : List β} (h : Starts parse (parse s).rest t) : Starts parse s t

theorem Starts.of_end {t : List β} (hend : parse [] = ⟨none, [], []⟩) (h : Starts parse s t)
    (hs : s = []) : t = [] := by
  induction h with
  | here => exact hs
  | next _ ih => exact ih (by rw [hs, hend])

/-- The parser keeps bytes that it takes, and it keeps some before the end. -/
def Takes (p : Parsed β ρ) (s : List β) : Prop :=
  (p.bytes ++ p.rest).Sublist s ∧ (p.bytes = [] → s = [] ∧ p.special = none)

/-- The parser keeps all that it takes from the stream, and it takes something before the end. -/
def Keeps (p : Parsed β ρ) (s : List β) : Prop :=
  p.bytes ++ p.rest = s ∧ (p.bytes = [] → s = [] ∧ p.special = none)

theorem Keeps.takes {p : Parsed β ρ} (h : Keeps p s) : Takes p s :=
  ⟨h.1 ▸ List.Sublist.refl _, h.2⟩

theorem getByte_keeps {next : β → List β → Parsed β ρ}
    (h : ∀ ch rest, s = ch :: rest → Keeps (next ch rest) (buf ++ ch :: rest)) :
    Keeps (getByte buf s next) (buf ++ s) := by
  cases s with
  | nil => exact ⟨rfl, fun hbuf => ⟨(List.append_nil buf).trans hbuf, rfl⟩⟩
  | cons ch rest => exact h ch rest rfl

theorem starts_iff {s : List β} {P : List β → Prop} :
    (∀ t, Starts parse s t → P t) ↔ P s ∧ ∀ t, Starts parse (parse s).rest t → P t := by
  refine ⟨fun h => ⟨h s (.here s), fun t ht => h t (.next ht)⟩, ?_⟩
  rintro ⟨hs, hrest⟩ t ht
  cases ht with
  | here => exact hs
  | next ht => exact hrest t ht

/-- What is decoded are bytes of the stream, and all of them if and only if every call of the parser
keeps what it takes. -/
theorem decodeAll_bytes (h : ∀ t, Takes (parse t) t) (buf s : List β)
    (hcalls : buf.length + s.length < calls) :
    ∃ outs, decodeAll parse calls buf s = some outs ∧
      (outs.flatMap (Sum.elim ([·]) Prod.snd)).Sublist (buf ++ s) ∧
      (outs.flatMap (Sum.elim ([·]) Prod.snd) = buf ++ s ↔
        ∀ t, Starts parse s t → (parse t).bytes ++ (parse t).rest = t) := by
  induction calls generalizing buf s with
  | zero => exact absurd hcalls (Nat.not_lt_zero _)
  | succ calls ih =>
    cases buf with
    | cons ch buf =>
      have hcall : decode parse (ch :: buf) s = some (.inl ch, buf, s) := rfl
      obtain ⟨outs, houts, hsub, hiff⟩ := ih buf s (by simp at hcalls; omega)
      refine ⟨.inl ch :: outs, by simp [decodeAll_call hcall, houts], ?_, ?_⟩
      · simpa using hsub
      · simpa using hiff
    | nil =>
      obtain ⟨hsub, hend⟩ := h s
      obtain ⟨⟨special, bytes, rest⟩, hp⟩ : ∃ p, parse s = p := ⟨_, rfl⟩
      rw [hp] at hsub hend
      cases bytes with
      | nil =>
        obtain ⟨rfl, rfl⟩ := hend rfl
        obtain rfl : rest = [] := by simpa using hsub
        refine ⟨[], by simp [decodeAll, decode, hp], .refl _, iff_of_true rfl fun t ht => ?_⟩
        obtain rfl := ht.of_end hp rfl
        simp [hp]
      | cons ch buf =>
        have hlen := hsub.length_le
        simp only [List.length_append, List.length_cons, List.length_nil] at hlen hcalls
        -- of the bytes that are kept and the rest, the further calls return all or not
        obtain ⟨outs, houts, htake, hiff⟩ : ∃ outs, decodeAll parse (calls + 1) [] s = some outs ∧
            (outs.flatMap (Sum.elim ([·]) Prod.snd)).Sublist (ch :: buf ++ rest) ∧
            (outs.flatMap (Sum.elim ([·]) Prod.snd) = ch :: buf ++ rest ↔
              ∀ t, Starts parse rest t → (parse t).bytes ++ (parse t).rest = t) := by
          cases special with
          | none =>
            have hcall : decode parse [] s = some (.inl ch, buf, rest) := by simp [decode, hp]
            obtain ⟨outs, houts, htake, hiff⟩ := ih buf rest (by omega)
            refine ⟨.inl ch :: outs, by rw [decodeAll_call hcall, houts]; rfl, ?_, ?_⟩
            · simpa using htake
            · simpa using hiff
          | some k =>
            have hcall : decode parse [] s = some (.inr (k, ch :: buf), [], rest) := by
              simp [decode, hp]
            obtain ⟨outs, houts, htake, hiff⟩ := ih [] rest (by simp; omega)
            refine ⟨.inr (k, ch :: buf) :: outs, by rw [decodeAll_call hcall, houts]; rfl, ?_, ?_⟩
            · simpa using htake
            · simpa using hiff
        refine ⟨outs, houts, htake.trans hsub, ?_⟩
        rw [starts_iff, hp, ← hiff]
        constructor
        · intro hall
          rw [hall] at htake
          have hkeep := hsub.antisymm htake
          exact ⟨hkeep, hall.trans hkeep.symm⟩
        · exact fun hall => hall.2.trans hall.1

/-- The stream is decoded without a loss if and only if every call of the parser keeps what it
takes. -/
theorem lossless_iff (h : ∀ t, Takes (parse t) t) (s : List β) :
    Lossless parse s ↔ ∀ t, Starts parse s t → (parse t).bytes ++ (parse t).rest = t := by
  have hcalls : ([] : List β).length + s.length < s.length + 1 := by simp
  obtain ⟨outs, houts, -, hiff⟩ := decodeAll_bytes h [] s hcalls
  rw [← hiff, Lossless, houts]
  simp

end BaseNx.Lib
