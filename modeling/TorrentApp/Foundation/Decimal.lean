import Mathlib.Data.List.Induction
import TorrentApp.Foundation.Bencode

set_option autoImplicit false

/-!
# Decimal texts

The text of a number without leading zeros: every number has one, and a printer that
takes the digits from the back writes it.
-/

namespace TorrentApp.Foundation.Bencode

/-- `0` -/
abbrev zeroByte : UInt8 := 48

/-- The character of a digit. -/
def digitByte (d : Nat) : UInt8 := UInt8.ofNat (48 + d)

theorem toNat_digitByte {d : Nat} (h : d < 10) : (digitByte d).toNat = 48 + d := by
  rw [digitByte, UInt8.toNat_ofNat', Nat.mod_eq_of_lt]
  omega

theorem numeric_digitByte {d : Nat} (h : d < 10) : numeric (digitByte d) = true := by
  have h57 : (57 : UInt8).toNat = 57 := rfl
  have h48 : (48 : UInt8).toNat = 48 := rfl
  simp only [numeric, Bool.and_eq_true, decide_eq_true_eq, UInt8.le_iff_toNat_le,
    toNat_digitByte h]
  omega

theorem digitValue_digitByte {d : Nat} (h : d < 10) : digitValue (digitByte d) = d := by
  rw [digitValue, toNat_digitByte h]
  omega

theorem digitByte_digitValue {c : UInt8} (h : numeric c = true) :
    digitByte (digitValue c) = c := by
  have hlt := digitValue_lt h
  simp only [numeric, Bool.and_eq_true, decide_eq_true_eq, UInt8.le_iff_toNat_le] at h
  have h48 : (48 : UInt8).toNat = 48 := rfl
  apply UInt8.toNat_inj.mp
  rw [toNat_digitByte hlt, digitValue]
  omega

/-- A text of digits that does not begin with a zero, unless it is the zero. -/
def IsDecimal (ds : List UInt8) : Prop :=
  ds = [zeroByte] ∨ ds ≠ [] ∧ (∀ c ∈ ds, numeric c = true) ∧ ds.head? ≠ some zeroByte

theorem IsDecimal.ne_nil {ds : List UInt8} (h : IsDecimal ds) : ds ≠ [] := by
  rcases h with rfl | ⟨hne, -⟩
  · exact List.cons_ne_nil _ _
  · exact hne

theorem IsDecimal.numeric {ds : List UInt8} (h : IsDecimal ds) :
    ∀ c ∈ ds, numeric c = true := by
  rcases h with rfl | ⟨-, hdigits, -⟩
  · rintro c hc
    rw [List.mem_singleton.mp hc]
    rfl
  · exact hdigits

theorem decimal_append_singleton (value : Nat) (ds : List UInt8) (c : UInt8) :
    decimal value (ds ++ [c]) = decimal value ds * 10 + digitValue c := by
  rw [decimal, List.foldl_append]
  rfl

theorem decimal_pos {ds : List UInt8} (hne : ds ≠ []) (hdigits : ∀ c ∈ ds, numeric c = true)
    (hhead : ds.head? ≠ some zeroByte) : 0 < decimal 0 ds := by
  induction ds using List.reverseRecOn with
  | nil => exact absurd rfl hne
  | append_singleton ds c ih =>
    rw [decimal_append_singleton]
    cases ds with
    | nil =>
      have hc : digitValue c ≠ 0 := by
        intro hzero
        apply hhead
        rw [List.nil_append, List.head?_cons, ← digitByte_digitValue (hdigits c (by simp)), hzero]
        rfl
      simp only [decimal, List.foldl_nil]
      omega
    | cons d ds =>
      have hpos : 0 < decimal 0 (d :: ds) :=
        ih (List.cons_ne_nil _ _) (fun c hc => hdigits c (List.mem_append_left _ hc)) hhead
      omega

/-- Every number has a text without leading zeros, as short as can be. -/
theorem exists_isDecimal (n : Nat) :
    ∃ ds, IsDecimal ds ∧ decimal 0 ds = n ∧ ∀ k, 0 < k → n < 10 ^ k → ds.length ≤ k := by
  induction n using Nat.strongRecOn with
  | ind n ih =>
    by_cases hsmall : n < 10
    · refine ⟨[digitByte n], ?_, ?_, fun k hk _ => hk⟩
      · by_cases hzero : n = 0
        · exact Or.inl (by rw [hzero]; rfl)
        · refine Or.inr ⟨List.cons_ne_nil _ _, ?_, ?_⟩
          · rintro c hc
            rw [List.mem_singleton.mp hc]
            exact numeric_digitByte hsmall
          · intro hhead
            have hbyte : digitByte n = zeroByte := Option.some.inj hhead
            have hvalue := digitValue_digitByte hsmall
            rw [hbyte] at hvalue
            exact hzero hvalue.symm
      · rw [show [digitByte n] = [] ++ [digitByte n] from rfl, decimal_append_singleton,
          digitValue_digitByte hsmall]
        exact Nat.zero_add n
    · obtain ⟨ds, hds, hvalue, hlength⟩ := ih (n / 10) (by omega)
      have hlt : n % 10 < 10 := Nat.mod_lt _ (by decide)
      have hhead : ds.head? ≠ some zeroByte := by
        rcases hds with rfl | ⟨-, -, hhead⟩
        · have hzero : decimal 0 [zeroByte] = 0 := by decide
          omega
        · exact hhead
      refine ⟨ds ++ [digitByte (n % 10)], Or.inr ⟨by simp, ?_, ?_⟩, ?_, ?_⟩
      · intro c hc
        rcases List.mem_append.mp hc with hc | hc
        · exact hds.numeric c hc
        · rw [List.mem_singleton.mp hc]
          exact numeric_digitByte hlt
      · rw [List.head?_append_of_ne_nil _ hds.ne_nil]
        exact hhead
      · rw [decimal_append_singleton, hvalue, digitValue_digitByte hlt]
        omega
      · intro k hk hn
        rw [List.length_append, List.length_singleton]
        obtain ⟨j, rfl⟩ : ∃ j, k = j + 1 := ⟨k - 1, by omega⟩
        have hj : 0 < j := by
          rcases Nat.eq_zero_or_pos j with rfl | hj
          · exact absurd hn (by omega)
          · exact hj
        have hsmaller : n / 10 < 10 ^ j := by
          rw [Nat.div_lt_iff_lt_mul (by decide), ← Nat.pow_succ]
          exact hn
        exact Nat.succ_le_succ (hlength j hj hsmaller)

/-- A printer that writes the digits of `val` in front of `acc`, from the last one on, with
room for `room` of them. -/
def printDigits : Nat → Nat → List UInt8 → List UInt8
  | 0, _, acc => acc
  | room + 1, val, acc =>
      if val = 0 then acc else printDigits room (val / 10) (digitByte (val % 10) :: acc)

/-- The printer writes the text without leading zeros. -/
theorem printDigits_decimal (acc : List UInt8) {ds : List UInt8} {room : Nat}
    (hdigits : ∀ c ∈ ds, numeric c = true) (hhead : ds.head? ≠ some zeroByte)
    (hroom : ds.length ≤ room) : printDigits room (decimal 0 ds) acc = ds ++ acc := by
  induction ds using List.reverseRecOn generalizing room acc with
  | nil => cases room <;> rfl
  | append_singleton ds c ih =>
    have hc : numeric c = true := hdigits c (by simp)
    have hlt := digitValue_lt hc
    have hpos := decimal_pos (by simp) hdigits hhead
    rw [List.length_append, List.length_singleton] at hroom
    obtain ⟨room, rfl⟩ : ∃ r, room = r + 1 := ⟨room - 1, by omega⟩
    have hhead' : ds.head? ≠ some zeroByte := by
      cases ds with
      | nil => simp
      | cons d ds => exact hhead
    rw [printDigits, if_neg (Nat.ne_of_gt hpos), decimal_append_singleton,
      show (decimal 0 ds * 10 + digitValue c) / 10 = decimal 0 ds by omega,
      show (decimal 0 ds * 10 + digitValue c) % 10 = digitValue c by omega,
      digitByte_digitValue hc,
      ih _ (fun c hc => hdigits c (List.mem_append_left _ hc)) hhead' (by omega),
      List.append_assoc, List.singleton_append]

/-- A number has one text without leading zeros. -/
theorem isDecimal_inj {ds ds' : List UInt8} (h : IsDecimal ds) (h' : IsDecimal ds')
    (hvalue : decimal 0 ds = decimal 0 ds') : ds = ds' := by
  have hzero : decimal 0 [zeroByte] = 0 := by decide
  rcases h with rfl | ⟨hne, hdigits, hhead⟩
  · rcases h' with rfl | ⟨hne', hdigits', hhead'⟩
    · rfl
    · have := decimal_pos hne' hdigits' hhead'
      omega
  · rcases h' with rfl | ⟨hne', hdigits', hhead'⟩
    · have := decimal_pos hne hdigits hhead
      omega
    · have hprint := printDigits_decimal [] hdigits hhead
        (Nat.le_max_left ds.length ds'.length)
      have hprint' := printDigits_decimal [] hdigits' hhead'
        (Nat.le_max_right ds.length ds'.length)
      rw [hvalue, hprint', List.append_nil, List.append_nil] at hprint
      exact hprint.symm

theorem IsDecimal.length_le {ds : List UInt8} (h : IsDecimal ds) {k : Nat} (hk : 0 < k)
    (hlt : decimal 0 ds < 10 ^ k) : ds.length ≤ k := by
  obtain ⟨ds', hds', hvalue, hshort⟩ := exists_isDecimal (decimal 0 ds)
  rw [isDecimal_inj h hds' hvalue.symm]
  exact hshort k hk hlt

end TorrentApp.Foundation.Bencode
