import StackLisp.Error

/-!
# Fixnums

Integers of 64 bits with sign. Arithmetic on them is exact: a result outside
their range is an error and never wraps around.

A sum, difference or product of several numbers is formed from left to right,
and each partial result has to be in range.

Whether many numbers are pairwise different is decided digit by digit instead of
pair by pair (`distinct_iff`).
-/

namespace StackLisp.Fixnum

/-- The fixnum of an integer in range. -/
def ofInt? (n : Int) : Option Int64 :=
  if -0x8000000000000000 ≤ n ∧ n < 0x8000000000000000 then some (Int64.ofInt n) else none

/-- The fixnum of an integer, which the operation blamed has produced. -/
def exact (operation : String) (n : Int) : Except Error Int64 :=
  match ofInt? n with
  | some m => .ok m
  | none => .error (.arithmetic (.overflow operation))

/-- The sum of numbers. -/
def sum (ns : List Int64) : Except Error Int64 :=
  ns.foldlM (fun acc n => exact "+" (acc.toInt + n.toInt)) 0

/-- The first number less the others, or the negation of a single one. -/
def difference : List Int64 → Except Error Int64
  | [] => .ok 0
  | [n] => exact "-" (-n.toInt)
  | n :: ns => ns.foldlM (fun acc n => exact "-" (acc.toInt - n.toInt)) n

/-- The product of numbers. -/
def product (ns : List Int64) : Except Error Int64 :=
  ns.foldlM (fun acc n => exact "*" (acc.toInt * n.toInt)) 1

/-- The remainder of a division that is rounded towards zero. The division of the
    least fixnum by `-1`, whose quotient is no fixnum, is refused. -/
def remainder (operation : String) (a b : Int64) : Except Error Int64 :=
  if a = Int64.minValue ∧ b = -1 then
    .error (.arithmetic (.overflow operation))
  else
    .ok (a % b)

/-- The remainder with the sign of the divisor. -/
def mod (a b : Int64) : Except Error Int64 :=
  if b = 0 then
    .error (.arithmetic (.divisionByZero "mod"))
  else do
    let r ← remainder "mod" a b
    return if r ≠ 0 ∧ decide (r < 0) ≠ decide (b < 0) then r + b else r

/-- The successor. -/
def increment (n : Int64) : Except Error Int64 := exact "1+" (n.toInt + 1)

/-- The predecessor. -/
def decrement (n : Int64) : Except Error Int64 := exact "1-" (n.toInt - 1)

/-- The absolute value. -/
def magnitude (n : Int64) : Except Error Int64 := exact "abs" n.toInt.natAbs

/-- Whether every number is related to the next one. -/
def chain (holds : Int64 → Int64 → Bool) : List Int64 → Bool
  | a :: b :: rest => holds a b && chain holds (b :: rest)
  | _ => true

/-! ## Distinct numbers -/

/-- The halves of the numbers of a parity, rounded down. -/
def halves (parity : Nat) (ns : List Nat) : List Nat :=
  (ns.filter (· % 2 = parity)).map (· / 2)

/-- Whether numbers of at most `width` binary digits are pairwise different: those
    that agree in the last digit have to differ in the others. -/
def distinctDigits : Nat → List Nat → Bool
  | _, [] => true
  | _, [_] => true
  | 0, _ => false
  | width + 1, ns => distinctDigits width (halves 0 ns) && distinctDigits width (halves 1 ns)

/-- Whether numbers are pairwise different. -/
def distinct (ns : List Int64) : Bool := distinctDigits 64 (ns.map (·.toBitVec.toNat))

/-- A half comes from the number of the parity that it is half of. -/
theorem mem_halves {parity m : Nat} {ns : List Nat} (h : parity < 2) :
    m ∈ halves parity ns ↔ 2 * m + parity ∈ ns := by
  simp only [halves, List.mem_map, List.mem_filter, decide_eq_true_eq]
  constructor
  · rintro ⟨n, ⟨hn, rfl⟩, rfl⟩
    rwa [Nat.div_add_mod]
  · intro hm
    exact ⟨_, ⟨hm, by omega⟩, by omega⟩

/-- Numbers are pairwise different if the even ones and the odd ones are. -/
theorem nodup_iff_halves (ns : List Nat) :
    ns.Nodup ↔ (halves 0 ns).Nodup ∧ (halves 1 ns).Nodup := by
  induction ns with
  | nil => simp [halves]
  | cons n ns ih =>
    have digits := Nat.div_add_mod n 2
    rcases Nat.mod_two_eq_zero_or_one n with h | h
    · have evens : halves 0 (n :: ns) = n / 2 :: halves 0 ns := by simp [halves, h]
      have odds : halves 1 (n :: ns) = halves 1 ns := by simp [halves, h]
      rw [evens, odds, List.nodup_cons, List.nodup_cons, ih, mem_halves (by decide), ← h, digits,
        and_assoc]
    · have evens : halves 0 (n :: ns) = halves 0 ns := by simp [halves, h]
      have odds : halves 1 (n :: ns) = n / 2 :: halves 1 ns := by simp [halves, h]
      rw [evens, odds, List.nodup_cons, List.nodup_cons, ih, mem_halves (by decide), ← h, digits,
        and_left_comm]

/-- Numbers of few enough digits pass the test exactly when no two of them are
    equal. -/
theorem distinctDigits_iff {width : Nat} {ns : List Nat} (h : ∀ n ∈ ns, n < Nat.pow 2 width) :
    distinctDigits width ns = true ↔ ns.Nodup := by
  fun_induction distinctDigits width ns with
  | case1 => simp
  | case2 => simp
  | case3 ns =>
    obtain _ | ⟨a, _ | ⟨b, ns⟩⟩ := ns
    · contradiction
    · simp_all
    · obtain rfl : a = 0 := by simpa using h a (by simp)
      obtain rfl : b = 0 := by simpa using h b (by simp)
      simp
  | case4 width ns _ _ evens odds =>
    have halved {parity : Nat} (p : parity < 2) : ∀ m ∈ halves parity ns, m < Nat.pow 2 width := by
      intro m hm
      have := h _ ((mem_halves p).1 hm)
      simp only [Nat.pow_eq] at this ⊢
      omega
    rw [Bool.and_eq_true, evens (halved (by decide)), odds (halved (by decide)), ← nodup_iff_halves]

/-- Numbers pass the test exactly when no two of them are equal. -/
theorem distinct_iff (ns : List Int64) : distinct ns = true ↔ ns.Nodup := by
  have inj (a b : Int64) : a.toBitVec.toNat = b.toBitVec.toNat ↔ a = b :=
    BitVec.toNat_inj.trans Int64.toBitVec_inj
  have small : ∀ n ∈ ns.map (·.toBitVec.toNat), n < Nat.pow 2 64 := by
    simp only [List.mem_map]
    rintro _ ⟨n, _, rfl⟩
    exact n.toBitVec.isLt
  simp only [distinct, distinctDigits_iff small, List.Nodup, List.pairwise_map, ne_eq, inj]

end StackLisp.Fixnum
