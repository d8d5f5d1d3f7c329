import Mathlib.Tactic.SplitIfs
import ScriptCore.Utf8

/-!
# Texts and their bytes

The bytes of a text show that text. Where the bytes of a text are cut at an
ASCII byte, both parts are the bytes of texts.

* `decode_ofString`: decoding is a left inverse of encoding.
* `exists_encode_of_split`: cutting at an ASCII byte.
-/

namespace ScriptCore.Utf8

variable {b : UInt8} {bs before after : Bytes} {c : Char} {cs : List Char}

/-! ## Decoding a character -/

theorem lead_one {n : Nat} (h : n < 128) : lead (UInt8.ofNat n) = .inl (Char.ofNat n) := by
  have hn : (UInt8.ofNat n).toNat = n := UInt8.toNat_ofNat_of_lt' (Nat.lt_trans h (by decide))
  rw [lead, if_pos (UInt8.le_iff_toNat_le.2 (hn.symm ▸ Nat.le_of_lt_succ h)), hn]

theorem lead_two : ∀ n < 32, 2 ≤ n →
    lead (UInt8.ofNat (n + 0xC0)) = .inr ⟨0, 0x80, 0xBF, n⟩ := by
  decide

theorem lead_three : ∀ n < 16, lead (UInt8.ofNat (n + 0xE0)) =
    .inr ⟨1, if n = 0 then 0xA0 else 0x80, if n = 13 then 0x9F else 0xBF, n⟩ := by
  decide

theorem lead_four : ∀ n < 5, lead (UInt8.ofNat (n + 0xF0)) =
    .inr ⟨2, if n = 0 then 0x90 else 0x80, if n = 4 then 0x8F else 0xBF, n⟩ := by
  decide

section Push

variable {o : Opening} {n : Nat}

/-- A byte in the range of an opening completes it, or goes on. -/
theorem push_ofNat (h : n < 64) (hlow : o.low.toNat ≤ n + 0x80)
    (hhigh : n + 0x80 ≤ o.high.toNat) : o.push (UInt8.ofNat (n + 0x80)) =
      match o.owed with
      | 0 => some (.inl (Char.ofNat (64 * o.value + n)))
      | k + 1 => some (.inr ⟨k, 0x80, 0xBF, 64 * o.value + n⟩) := by
  have hn : (UInt8.ofNat (n + 0x80)).toNat = n + 0x80 :=
    UInt8.toNat_ofNat_of_lt' (Nat.lt_trans (Nat.add_lt_add_right h _) (by decide))
  have hrange : o.low ≤ UInt8.ofNat (n + 0x80) ∧ UInt8.ofNat (n + 0x80) ≤ o.high :=
    ⟨UInt8.le_iff_toNat_le.2 (hn.symm ▸ hlow), UInt8.le_iff_toNat_le.2 (hn.symm ▸ hhigh)⟩
  cases howed : o.owed <;>
    simp only [Opening.push, if_pos hrange, hn, Nat.add_sub_cancel, howed]

/-- Any tail may follow where the range is not narrowed. -/
theorem push_tail (h : n < 64) (owed value : Nat) :
    Opening.push ⟨owed, 0x80, 0xBF, value⟩ (UInt8.ofNat (n + 0x80)) =
      match owed with
      | 0 => some (.inl (Char.ofNat (64 * value + n)))
      | k + 1 => some (.inr ⟨k, 0x80, 0xBF, 64 * value + n⟩) :=
  push_ofNat (o := ⟨owed, 0x80, 0xBF, value⟩) h (Nat.le_add_left _ _)
    (Nat.add_le_add_right (Nat.le_of_lt_succ h) _)

end Push

section DecodeFrom

variable {o o' : Opening}

theorem decodeFrom_of_lead_inl (h : lead b = .inl c) :
    decodeFrom none (b :: bs) = c :: decodeFrom none bs := by
  rw [decodeFrom, step, h]
  rfl

theorem decodeFrom_of_lead_inr (h : lead b = .inr o) :
    decodeFrom none (b :: bs) = decodeFrom (some o) bs := by
  rw [decodeFrom, step, h]
  rfl

theorem decodeFrom_of_push_inl (h : o.push b = some (.inl c)) :
    decodeFrom (some o) (b :: bs) = c :: decodeFrom none bs := by
  rw [decodeFrom, step, h]
  rfl

theorem decodeFrom_of_push_inr (h : o.push b = some (.inr o')) :
    decodeFrom (some o) (b :: bs) = decodeFrom (some o') bs := by
  rw [decodeFrom, step, h]
  rfl

end DecodeFrom

/-- The bytes of a character show it, whatever follows. -/
theorem decodeFrom_encodeChar_append (c : Char) (bs : Bytes) :
    decodeFrom none (String.utf8EncodeChar c ++ bs) = c :: decodeFrom none bs := by
  obtain ⟨v, hv⟩ : ∃ v, v = c.val.toNat := ⟨_, rfl⟩
  have hvalid : v < 0xD800 ∨ 0xDFFF < v ∧ v < 0x110000 := hv ▸ c.valid
  have hc : Char.ofNat v = c := hv ▸ Char.ofNat_toNat c
  have htail : ∀ k, v / k % 64 < 64 := fun k => Nat.mod_lt _ (by decide)
  have hlast : ∀ {value}, 64 * value + v % 64 = v →
      Opening.push ⟨0, 0x80, 0xBF, value⟩ (UInt8.ofNat (v % 64 + 0x80)) = some (.inl c) :=
    fun hvalue => by rw [push_tail (Nat.mod_lt _ (by decide)), hvalue, hc]
  rw [String.utf8EncodeChar, ← hv]
  split_ifs with hone htwo hthree
  · exact hc ▸ decodeFrom_of_lead_inl (lead_one (Nat.lt_succ_of_le hone))
  · have hlead := lead_two (v / 64 % 32) (Nat.mod_lt _ (by decide)) (by omega)
    exact (decodeFrom_of_lead_inr hlead).trans (decodeFrom_of_push_inl (hlast (by omega)))
  · have hlead := lead_three (v / 4096 % 16) (Nat.mod_lt _ (by decide))
    -- a second byte outside of its range would spell a smaller character, or a surrogate
    have hsecond := push_ofNat (o := ⟨1, if v / 4096 % 16 = 0 then 0xA0 else 0x80,
      if v / 4096 % 16 = 13 then 0x9F else 0xBF, v / 4096 % 16⟩) (htail 64)
      (by simp only [apply_ite UInt8.toNat, UInt8.reduceToNat]; split_ifs <;> omega)
      (by simp only [apply_ite UInt8.toNat, UInt8.reduceToNat]; split_ifs <;> omega)
    exact (decodeFrom_of_lead_inr hlead).trans ((decodeFrom_of_push_inr hsecond).trans
      (decodeFrom_of_push_inl (hlast (by dsimp only; omega))))
  · have hlead := lead_four (v / 262144 % 8) (by omega)
    have hsecond := push_ofNat (o := ⟨2, if v / 262144 % 8 = 0 then 0x90 else 0x80,
      if v / 262144 % 8 = 4 then 0x8F else 0xBF, v / 262144 % 8⟩) (htail 4096)
      (by simp only [apply_ite UInt8.toNat, UInt8.reduceToNat]; split_ifs <;> omega)
      (by simp only [apply_ite UInt8.toNat, UInt8.reduceToNat]; split_ifs <;> omega)
    have hthird := push_tail (htail 64) 1 (64 * (v / 262144 % 8) + v / 4096 % 64)
    exact (decodeFrom_of_lead_inr hlead).trans ((decodeFrom_of_push_inr hsecond).trans
      ((decodeFrom_of_push_inr hthird).trans (decodeFrom_of_push_inl (hlast (by omega)))))

theorem encode_cons (c : Char) (cs : List Char) :
    encode (c :: cs) = String.utf8EncodeChar c ++ encode cs :=
  List.flatMap_cons

theorem decodeFrom_encode (cs : List Char) : decodeFrom none (encode cs) = cs := by
  induction cs with
  | nil => rfl
  | cons c cs ih =>
    rw [encode_cons, decodeFrom_encodeChar_append, ih]

theorem decode_encode (cs : List Char) : decode (encode cs) = String.ofList cs := by
  rw [decode, decodeFrom_encode]

theorem decode_ofString (s : String) : decode (Bytes.ofString s) = s := by
  rw [Bytes.ofString, decode_encode, String.ofList_toList]

theorem ofString_inj {x y : String} : Bytes.ofString x = Bytes.ofString y ↔ x = y := by
  refine ⟨fun h => ?_, congrArg _⟩
  rw [← Utf8.decode_ofString x, h, Utf8.decode_ofString]

/-- The bytes of a text are read back from what they show. -/
theorem ofString_decode_encode (cs : List Char) :
    Bytes.ofString (decode (encode cs)) = encode cs := by
  rw [decode_encode, Bytes.ofString, String.toList_ofList]

/-! ## Cutting at an ASCII byte -/

theorem encode_append (cs cs' : List Char) : encode (cs ++ cs') = encode cs ++ encode cs' :=
  List.flatMap_append

/-- Only a character that is one byte has a byte below 128. -/
theorem encodeChar_eq_of_mem (hmem : b ∈ String.utf8EncodeChar c) (hb : b < 128) :
    String.utf8EncodeChar c = [b] := by
  have hhigh : ∀ n, 128 ≤ n → n < 256 → b ≠ UInt8.ofNat n := fun n hn hlt heq => by
    rw [heq, UInt8.lt_iff_toNat_lt, UInt8.toNat_ofNat_of_lt' hlt] at hb
    exact Nat.not_lt_of_le hn hb
  rw [String.utf8EncodeChar] at hmem ⊢
  split_ifs at hmem ⊢ with hone htwo hthree
  · rw [List.mem_singleton.1 hmem]
  · simp only [List.mem_cons, List.not_mem_nil, or_false] at hmem
    rcases hmem with heq | heq <;> exact absurd heq (hhigh _ (by omega) (by omega))
  · simp only [List.mem_cons, List.not_mem_nil, or_false] at hmem
    rcases hmem with heq | heq | heq <;> exact absurd heq (hhigh _ (by omega) (by omega))
  · simp only [List.mem_cons, List.not_mem_nil, or_false] at hmem
    rcases hmem with heq | heq | heq | heq <;> exact absurd heq (hhigh _ (by omega) (by omega))

theorem exists_encode_of_split (hb : b < 128) (h : encode cs = before ++ b :: after) :
    (∃ cs', before = encode cs') ∧ ∃ cs', after = encode cs' := by
  induction cs generalizing before with
  | nil => exact absurd h.symm (List.append_ne_nil_of_right_ne_nil _ (List.cons_ne_nil _ _))
  | cons c cs ih =>
    rw [encode_cons] at h
    rcases List.append_eq_append_iff.1 h with ⟨more, hbefore, hrest⟩ | ⟨more, hchar, hrest⟩
    · obtain ⟨⟨cs', rfl⟩, hafter⟩ := ih hrest
      exact ⟨⟨c :: cs', hbefore⟩, hafter⟩
    · cases more with
      | nil =>
        obtain ⟨⟨cs', hcs'⟩, hafter⟩ := ih (hrest.symm.trans (List.nil_append _).symm)
        refine ⟨⟨[c], ?_⟩, hafter⟩
        rw [encode_cons, hchar, List.append_nil]
        exact (List.append_nil before).symm
      | cons b' more =>
        -- the byte is in the character, which is nothing else then
        obtain ⟨rfl, hafter⟩ := List.cons.inj hrest
        have hsingle := encodeChar_eq_of_mem (hchar ▸ List.mem_append_right _ List.mem_cons_self) hb
        rw [hsingle] at hchar
        obtain ⟨rfl, hnil⟩ : before = [] ∧ more = [] := by
          cases before with
          | nil => exact ⟨rfl, (List.cons.inj hchar).2.symm⟩
          | cons b' before => exact absurd (List.cons.inj hchar).2.symm (by simp)
        exact ⟨⟨[], rfl⟩, cs, by rw [hafter, hnil]; rfl⟩

theorem encodeChar_ofNat : ∀ n < 128, String.utf8EncodeChar (Char.ofNat n) = [UInt8.ofNat n] := by
  decide

/-- ASCII bytes are the bytes of a text. -/
theorem exists_encode_of_ascii (h : ∀ b ∈ bs, b < 128) : ∃ cs, bs = encode cs := by
  induction bs with
  | nil => exact ⟨[], rfl⟩
  | cons b bs ih =>
    obtain ⟨hb, hbs⟩ := List.forall_mem_cons.1 h
    obtain ⟨cs, rfl⟩ := ih hbs
    refine ⟨Char.ofNat b.toNat :: cs, ?_⟩
    rw [encode_cons, encodeChar_ofNat _ (UInt8.lt_iff_toNat_lt.1 hb), UInt8.ofNat_toNat]
    rfl

end ScriptCore.Utf8
