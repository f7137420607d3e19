import LasFile.Proofs.Text.Stored

/-!
# Texts of any bytes

A text that was read from a field has no NUL, whatever bytes the field held: a sequence is completed
only to a code point past the single bytes, and what cannot be completed becomes a replacement
character. The replacement takes more bytes than what it replaces, so that such a text need not fit
the field it was read from. `FixedText.cut` is what is left of it there.
-/

namespace LasFile

namespace Utf8

/-! ## Sequences under way -/

/-- Each code point of `left` more continuation bytes is that of a character past the single
bytes. -/
def Completes : (left code : Nat) → Prop
  | 0, code => 127 < code ∧ code.isValidChar
  | left + 1, code => ∀ n < 64, Completes left (code * 64 + n)

/-- Whatever byte of its range comes next, the sequence is completed to a character. -/
def Started.Sound (s : Started) : Prop :=
  ∀ b : UInt8, s.low ≤ b → b ≤ s.high → Completes s.left (s.code * 64 + b.toNat % 64)

/-- A byte that begins a sequence leaves one that can be completed. -/
theorem sound_of_lead {b : UInt8} {s : Started} (h : lead b = .sequence s) : s.Sound := by
  intro next hlow hhigh
  rw [UInt8.le_iff_toNat_le] at hlow hhigh
  unfold lead at h
  dsimp only at h
  split at h
  next => cases h
  split at h
  next => cases h
  split at h
  next =>
    obtain rfl := Lead.sequence.inj h
    simp only [UInt8.reduceToNat] at hlow hhigh
    simp only [Completes, Nat.isValidChar]
    omega
  split at h
  next =>
    obtain rfl := Lead.sequence.inj h
    dsimp only at hlow hhigh
    intro n hn
    simp only [Completes, Nat.isValidChar]
    split at hlow <;> split at hhigh <;> simp only [UInt8.reduceToNat] at hlow hhigh <;> omega
  split at h
  next =>
    obtain rfl := Lead.sequence.inj h
    dsimp only at hlow hhigh
    intro n hn m hm
    simp only [Completes, Nat.isValidChar]
    split at hlow <;> split at hhigh <;> simp only [UInt8.reduceToNat] at hlow hhigh <;> omega
  next => cases h

/-- A byte that continues a sequence but does not end it leaves one that can be completed. -/
theorem Started.Sound.next {s : Started} (hs : s.Sound) {b : UInt8} (hlow : s.low ≤ b)
    (hhigh : b ≤ s.high) {left : Nat} (hleft : s.left = left + 1) :
    Sound ⟨s.code * 64 + b.toNat % 64, left, 0x80, 0xBF⟩ := by
  intro c _ _
  have hall := hs b hlow hhigh
  rw [hleft] at hall
  exact hall _ (Nat.mod_lt _ (by decide))

/-! ## Characters that are read -/

/-- What one byte other than zero completes is no NUL, and what it leaves can be completed. -/
def Steps (step : List Char × Option Started) : Prop :=
  '\x00' ∉ step.1 ∧ ∀ s, step.2 = some s → s.Sound

theorem ofNat_ne_nul {n : Nat} (hpos : 0 < n) (hvalid : n.isValidChar) : Char.ofNat n ≠ '\x00' := by
  intro h
  have hcode : (Char.ofNat n).toNat = n := by
    rw [Char.ofNat, dif_pos hvalid]
    rfl
  rw [h] at hcode
  exact Nat.ne_of_gt hpos hcode.symm

theorem replacement_ne_nul : '\x00' ≠ replacement := by decide

theorem steps_begin {b : UInt8} (hb : b ≠ 0) : Steps (begin b) := by
  unfold begin
  cases hlead : lead b with
  | character c =>
    refine ⟨?_, by simp⟩
    unfold lead at hlead
    dsimp only at hlead
    split at hlead
    next hsingle =>
      cases hlead
      have hpos : 0 < b.toNat := Nat.pos_of_ne_zero fun h ↦ hb (UInt8.toNat_inj.1 h)
      have hne := ofNat_ne_nul hpos (Or.inl (by omega))
      simpa using hne.symm
    next => split_ifs at hlead
  | sequence s =>
    refine ⟨by simp, ?_⟩
    rintro _ ⟨⟩
    exact sound_of_lead hlead
  | invalid => exact ⟨by simp [replacement_ne_nul], by simp⟩

theorem steps_advance {state : Option Started} (hstate : ∀ s, state = some s → s.Sound)
    {b : UInt8} (hb : b ≠ 0) : Steps (advance state b) := by
  cases state with
  | none => exact steps_begin hb
  | some s =>
    unfold advance
    dsimp only
    split
    next hrange =>
      obtain ⟨hlow, hhigh⟩ := Bool.and_eq_true_iff.1 hrange
      have hlow := of_decide_eq_true hlow
      have hhigh := of_decide_eq_true hhigh
      have hs := hstate s rfl
      split
      next hlast =>
        have hcode := hs b hlow hhigh
        rw [hlast] at hcode
        obtain ⟨hpast, hvalid⟩ := hcode
        have hne := ofNat_ne_nul (Nat.lt_trans (by decide) hpast) hvalid
        exact ⟨by simpa using hne.symm, by simp⟩
      next left hleft =>
        refine ⟨by simp, ?_⟩
        rintro _ ⟨⟩
        exact hs.next hlow hhigh hleft
    next =>
      obtain ⟨hchars, hnext⟩ := steps_begin hb
      exact ⟨List.not_mem_cons_of_ne_of_not_mem replacement_ne_nul hchars, hnext⟩

theorem nul_not_mem_decodeFrom {bs : List UInt8} (hbs : ∀ b ∈ bs, b ≠ 0) {state : Option Started}
    (hstate : ∀ s, state = some s → s.Sound) : '\x00' ∉ decodeFrom state bs := by
  induction bs generalizing state with
  | nil =>
    cases state with
    | none => exact List.not_mem_nil
    | some s => exact List.not_mem_cons_of_ne_of_not_mem replacement_ne_nul List.not_mem_nil
  | cons b bs ih =>
    obtain ⟨hb, hrest⟩ := List.forall_mem_cons.1 hbs
    obtain ⟨hchars, hnext⟩ := steps_advance hstate hb
    have hsplit : decodeFrom state (b :: bs) =
        (advance state b).1 ++ decodeFrom (advance state b).2 bs := by
      cases state <;> rfl
    rw [hsplit, List.mem_append]
    exact not_or_intro hchars (ih hrest hnext)

end Utf8

namespace FixedText

/-! ## Texts read from fields -/

/-- The text of a field has no NUL. -/
theorem nul_not_mem_decode (bytes : List UInt8) : '\x00' ∉ (decode bytes).toList := by
  rw [decode, String.toList_ofList, Utf8.decode]
  apply Utf8.nul_not_mem_decodeFrom
  · intro b hb
    simpa using List.mem_takeWhile_imp hb
  · simp

/-- The text of a field of valid bytes fits a field of that size. -/
theorem utf8ByteSize_decode_le {bytes : List UInt8} {cs : List Char}
    (h : bytes.takeWhile (· != 0) = Utf8.encode cs) :
    (decode bytes).utf8ByteSize ≤ bytes.length := by
  rw [decode, h, Utf8.decode_encode, ← Utf8.length_encode, ← h]
  exact (List.takeWhile_prefix _).length_le

/-- What is left of a text in a field of some width: the longest prefix of whole characters that
fits. -/
def cut (width : Nat) (s : String) : String := String.ofList (fit width s.toList)

/-- Of a text that was read from a field, another one holds what is left of it. -/
theorem stored_decode (width : Nat) (bytes : List UInt8) :
    stored width (decode bytes) = cut width (decode bytes) := by
  have hnul : '\x00' ∉ fit width (decode bytes).toList := fun h ↦
    nul_not_mem_decode bytes (mem_of_mem_fit h)
  rw [stored, cut, takeWhile_ne_nul hnul]

/-- Nothing is cut off exactly if the text takes no more than the width. -/
theorem cut_decode_eq_self_iff {width : Nat} {bytes : List UInt8} :
    cut width (decode bytes) = decode bytes ↔ (decode bytes).utf8ByteSize ≤ width := by
  rw [← stored_decode, stored_eq_self_iff]
  exact and_iff_left (nul_not_mem_decode bytes)

end FixedText

end LasFile
