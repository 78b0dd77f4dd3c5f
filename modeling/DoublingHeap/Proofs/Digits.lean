import DoublingHeap.Text

/-! # Digits

Numbers are written most significant digit first: the digits of the quotient by the base, and after
them that of the remainder (`Positional`). Both ways of writing numbers are of this kind, in base
ten and in base sixteen, and what is written so is read back (`continueDigits?_positional`). -/

namespace DoublingHeap.Proofs.Digits

open DoublingHeap.Bytes DoublingHeap.Text.Numeral

theorem digitValue?_digit {d : Nat} (hd : d < 16) : Hex.digitValue? (Hex.digit d) = some d := by
  have hall : ∀ d : Fin 16, Hex.digitValue? (Hex.digit d) = some d.val := by decide
  exact hall ⟨d, hd⟩

theorem digitChar_eq_digit {d : Nat} (hd : d < 16) : Nat.digitChar d = Hex.digit d := by
  have hall : ∀ d : Fin 16, Nat.digitChar d = Hex.digit d := by decide
  exact hall ⟨d, hd⟩

theorem digit_ne {d : Nat} (hd : d < 16) : Hex.digit d ≠ ' ' ∧ Hex.digit d ≠ '\n' := by
  have hall : ∀ d : Fin 16, Hex.digit d ≠ ' ' ∧ Hex.digit d ≠ '\n' := by decide
  exact hall ⟨d, hd⟩

section Positional

variable {base : Nat} {write : Nat → List Char}

/-- **Digits by their places**: the last digit of a number is its remainder by the base, and before
it stand the digits of the quotient, if there are any. -/
structure Positional (base : Nat) (write : Nat → List Char) : Prop where
  two_le : 2 ≤ base
  le_sixteen : base ≤ 16
  write_eq : ∀ n, write n = if n < base then [Hex.digit n]
    else write (n / base) ++ [Hex.digit (n % base)]

theorem positional_hex : Positional 16 Hex.ofNat := by
  refine ⟨by decide, by decide, fun n => ?_⟩
  rw [Hex.ofNat]

theorem positional_toDigits (htwo : 2 ≤ base) (hsixteen : base ≤ 16) :
    Positional base (Nat.toDigits base) := by
  refine ⟨htwo, hsixteen, fun n => ?_⟩
  have hmod : n % base < base := Nat.mod_lt n (by omega)
  rw [Nat.toDigits_eq_if (by omega)]
  split
  · rw [digitChar_eq_digit (by omega)]
  · rw [digitChar_eq_digit (by omega)]

theorem positional_decimal : Positional 10 (Nat.toDigits 10) :=
  positional_toDigits (by decide) (by decide)

theorem toList_toString (n : Nat) : (toString n).toList = Nat.toDigits 10 n := Nat.toList_repr

theorem Positional.unique {write' : Nat → List Char} (h : Positional base write)
    (h' : Positional base write') (n : Nat) : write n = write' n := by
  have htwo := h.two_le
  induction n using Nat.strongRecOn with
  | ind n ih =>
    rw [h.write_eq, h'.write_eq]
    split
    · rfl
    · rw [ih _ (Nat.div_lt_self (by omega) htwo)]

theorem valueBelow_digit (hbase : base ≤ 16) {d : Nat} (hd : d < base) :
    digitValue? base (Hex.digit d) = some d := by
  unfold digitValue?
  rw [digitValue?_digit (Nat.lt_of_lt_of_le hd hbase), Option.filter_some,
    if_pos (decide_eq_true hd)]

theorem continueDigits?_append (base : Nat) (cs ds : List Char) (n : Nat) :
    continueDigits? base (cs ++ ds) n = (continueDigits? base cs n).bind (continueDigits? base ds)
    := by
  induction cs generalizing n with
  | nil => rfl
  | cons c cs ih =>
    rw [List.cons_append, continueDigits?, continueDigits?]
    cases digitValue? base c with
    | none => rfl
    | some d => exact ih _

/-- **A number that is written is read back.** -/
theorem continueDigits?_positional (h : Positional base write) (n : Nat) :
    continueDigits? base (write n) 0 = some n := by
  have htwo := h.two_le
  -- by induction on the number, which the quotient is below
  induction n using Nat.strongRecOn with
  | ind n ih =>
    rw [h.write_eq n]
    split
    · rename_i hlt
      rw [continueDigits?, valueBelow_digit h.le_sixteen hlt]
      simp only [Option.bind_eq_bind, Option.bind_some, continueDigits?, Nat.zero_mul, Nat.zero_add]
    · rename_i hge
      have hmod : n % base < base := Nat.mod_lt n (by omega)
      rw [continueDigits?_append, ih _ (Nat.div_lt_self (by omega) htwo), Option.bind_some,
        continueDigits?, valueBelow_digit h.le_sixteen hmod]
      simp only [Option.bind_eq_bind, Option.bind_some, continueDigits?]
      rw [Nat.mul_comm, Nat.div_add_mod]

theorem digit_of_mem (h : Positional base write) {n : Nat} {c : Char} (hc : c ∈ write n) :
    ∃ d, d < base ∧ c = Hex.digit d := by
  have htwo := h.two_le
  induction n using Nat.strongRecOn with
  | ind n ih =>
    rw [h.write_eq n] at hc
    split at hc
    · rename_i hlt
      exact ⟨n, hlt, List.mem_singleton.mp hc⟩
    · rename_i hge
      rcases List.mem_append.mp hc with hc | hc
      · exact ih _ (Nat.div_lt_self (by omega) htwo) hc
      · exact ⟨n % base, Nat.mod_lt n (by omega), List.mem_singleton.mp hc⟩

theorem not_mem_write (h : Positional base write) (n : Nat) : '\n' ∉ write n := by
  intro hmem
  obtain ⟨d, hd, heq⟩ := digit_of_mem h hmem
  exact (digit_ne (Nat.lt_of_lt_of_le hd h.le_sixteen)).2 heq.symm

theorem write_ne_nil (h : Positional base write) (n : Nat) : write n ≠ [] := by
  rw [h.write_eq n]
  split
  · exact List.cons_ne_nil _ _
  · exact List.append_ne_nil_of_right_ne_nil _ (List.cons_ne_nil _ _)

theorem digits?_positional (h : Positional base write) (n : Nat) :
    digits? base (write n) = some n := by
  have hread := continueDigits?_positional h n
  cases hwrite : write n with
  | nil => exact absurd hwrite (write_ne_nil h n)
  | cons c cs =>
    rw [hwrite] at hread
    exact hread

end Positional

end DoublingHeap.Proofs.Digits
