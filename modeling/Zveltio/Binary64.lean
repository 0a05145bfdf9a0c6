import Mathlib.Data.Int.Log
import Mathlib.Algebra.Order.Floor.Semifield
import Mathlib.Data.Rat.Floor
import Mathlib.Tactic.Ring
import Mathlib.Tactic.Linarith
import Mathlib.Tactic.Positivity
import Mathlib.Tactic.FieldSimp
namespace Zveltio.Binary64

-- The double nearest to a rational, ties to even, and the shortest decimal that
-- reads back as a double.
def halfEven (q : ℚ) : ℤ :=
  if Int.fract q < 1 / 2 then ⌊q⌋
  else if 1 / 2 < Int.fract q then ⌊q⌋ + 1
  else if ⌊q⌋ % 2 = 0 then ⌊q⌋ else ⌊q⌋ + 1

def spacing (q : ℚ) : ℚ := (2 : ℚ) ^ max (Int.log 2 q - 52) (-1074)

def nearest (q : ℚ) : ℚ := halfEven (q / spacing q) * spacing q

inductive Number where
  | nan
  | infinite (negative : Bool)
  | finite (value : ℚ)

def toNumber (q : ℚ) : Number :=
  let size := nearest |q|
  if 2 ^ 1024 ≤ size then .infinite (q < 0) else .finite (if q < 0 then -size else size)

-- The decimal of that many digits closest to x, if it reads back as x.
def candidate (x : ℚ) (count : Nat) : Option Nat :=
  let scale : ℚ := (10 : ℚ) ^ ((count : ℤ) - (Int.log 10 x + 1))
  let low := ⌊x * scale⌋.toNat
  let high := low + 1
  let reads (digits : Nat) : Bool := nearest (digits / scale) = x
  if reads low && (!reads high || x * scale - low < high - x * scale ||
      (x * scale - low = high - x * scale && low % 2 = 0)) then some low
  else if reads high then some high
  else none

def shortest (x : ℚ) : Option (Nat × Nat) :=
  (List.range 17).findSome? fun index => (candidate x (index + 1)).map fun digits => (digits,index + 1)

def stripZeros (digits : List Char) : List Char := (digits.reverse.dropWhile fun char => char = '0').reverse

-- Number::toString of a positive finite number: the digits, and the place of the
-- point counted from their start.
def layout (digits : List Char) (point : ℤ) : String :=
  let count : ℤ := digits.length
  if count ≤ point ∧ point ≤ 21 then String.ofList (digits ++ List.replicate (point - count).toNat '0')
  else if 0 < point ∧ point ≤ 21 then
    String.ofList (digits.take point.toNat ++ ['.'] ++ digits.drop point.toNat)
  else if -6 < point ∧ point ≤ 0 then String.ofList (['0','.'] ++ List.replicate (-point).toNat '0' ++ digits)
  else
    let sign := if 0 < point - 1 then "+" else "-"
    let head := match digits with
      | [] => ""
      | [only] => String.ofList [only]
      | first::rest => String.ofList ([first,'.'] ++ rest)
    head ++ "e" ++ sign ++ (point - 1).natAbs.repr

def positiveText (x : ℚ) : String :=
  match shortest x with
  | none => ""
  | some (value,count) =>
    let digits := Nat.toDigits 10 value
    layout (stripZeros digits) (Int.log 10 x + 1 + (digits.length - count))

def numberToString : Number → String
  | .nan => "NaN"
  | .infinite negative => if negative then "-Infinity" else "Infinity"
  | .finite value =>
    if value = 0 then "0" else if value < 0 then "-" ++ positiveText (-value) else positiveText value

theorem halfEven_int (value : ℤ) : halfEven value = value := by
  simp [halfEven]

theorem floor_halfEven (q : ℚ) : ⌊q⌋ ≤ halfEven q := by
  unfold halfEven
  split_ifs <;> omega

theorem spacing_pos (q : ℚ) : 0 < spacing q := by
  unfold spacing
  exact zpow_pos (by norm_num) _

theorem log_nat (value : Nat) : Int.log 2 (value : ℚ) = Nat.log 2 value := Int.log_natCast 2 value

theorem nearest_small {value : Nat} (small : value < 2 ^ 53) : nearest (value : ℚ) = value := by
  have order : Int.log 2 (value : ℚ) ≤ 52 := by
    rw [log_nat]
    have bound : Nat.log 2 value < 53 := Nat.log_lt_of_lt_pow' (by decide) small
    omega
  obtain ⟨steps,same⟩ : ∃ steps : Nat, max (Int.log 2 (value : ℚ) - 52) (-1074) = -(steps : ℤ) :=
    ⟨(-(max (Int.log 2 (value : ℚ) - 52) (-1074))).toNat,by omega⟩
  have fine : spacing (value : ℚ) = ((2 : ℚ) ^ steps)⁻¹ := by
    rw [spacing,same,zpow_neg,zpow_natCast]
  have whole : (value : ℚ) / spacing value = ((value * 2 ^ steps : ℤ) : ℚ) := by
    rw [fine]
    push_cast
    rw [div_inv_eq_mul]
  rw [nearest,whole,halfEven_int,fine]
  push_cast
  field_simp

-- From 2^53 on rounding does not come back below it.
theorem nearest_large {value : Nat} (large : 2 ^ 53 ≤ value) : 2 ^ 53 ≤ nearest (value : ℚ) := by
  have positive : (0 : ℚ) < value := by
    have some' : 0 < value := lt_of_lt_of_le (by positivity) large
    exact_mod_cast some'
  have order : 53 ≤ Int.log 2 (value : ℚ) := by
    rw [log_nat]
    have bound : 53 ≤ Nat.log 2 value := Nat.le_log_of_pow_le (by decide) large
    omega
  have coarse : spacing (value : ℚ) = (2 : ℚ) ^ (Int.log 2 (value : ℚ) - 52) := by
    rw [spacing,max_eq_left (by omega)]
  have reached : (2 : ℚ) ^ Int.log 2 (value : ℚ) ≤ value := by
    exact_mod_cast Int.zpow_log_le_self (b := 2) (by decide) positive
  have split : (2 : ℚ) ^ Int.log 2 (value : ℚ) = 2 ^ (52 : ℕ) * spacing value := by
    rw [coarse,← zpow_natCast,← zpow_add₀ (by norm_num)]
    congr 1
    push_cast
    ring
  have significand : ((2 ^ 52 : ℤ) : ℚ) ≤ value / spacing value := by
    rw [le_div_iff₀ (spacing_pos _)]
    have bound := split ▸ reached
    exact_mod_cast bound
  have kept : (2 ^ 52 : ℤ) ≤ halfEven (value / spacing value) :=
    le_trans (Int.le_floor.mpr significand) (floor_halfEven _)
  calc (2 : ℚ) ^ 53 ≤ 2 ^ Int.log 2 (value : ℚ) := by
        rw [← zpow_natCast]
        exact zpow_le_zpow_right₀ (by norm_num) (by exact_mod_cast order)
    _ = 2 ^ (52 : ℕ) * spacing value := split
    _ ≤ nearest value := by
        rw [nearest]
        refine mul_le_mul_of_nonneg_right ?_ (spacing_pos _).le
        exact_mod_cast kept

theorem nearest_exact {value other : Nat} (small : value < 2 ^ 53) : nearest (other : ℚ) = value ↔ other = value := by
  constructor
  · intro same
    rcases Nat.lt_or_ge other (2 ^ 53) with fine | coarse
    · rw [nearest_small fine] at same
      exact_mod_cast same
    · have far := nearest_large coarse
      rw [same] at far
      have back : 2 ^ 53 ≤ value := by exact_mod_cast far
      omega
  · rintro rfl
    exact nearest_small small

theorem log_ten {value : Nat} (positive : 0 < value) : (Nat.toDigits 10 value).length = Nat.log 10 value + 1 := by
  apply le_antisymm
  · exact (Nat.length_toDigits_le_iff (by decide) (by omega)).mpr (Nat.lt_pow_succ_log_self (by decide) value)
  · by_contra short
    have some' : 0 < (Nat.toDigits 10 value).length := Nat.length_toDigits_pos
    have bound := (Nat.length_toDigits_le_iff (n := value) (by decide) some').mp le_rfl
    have reached := Nat.pow_log_le_self 10 (Nat.pos_iff_ne_zero.mp positive)
    have order := Nat.pow_le_pow_right (n := 10) (by decide) (show (Nat.toDigits 10 value).length ≤ Nat.log 10 value by omega)
    omega

theorem toDigits_shift {value : Nat} (positive : 0 < value) (places : Nat) :
    Nat.toDigits 10 (value * 10 ^ places) = Nat.toDigits 10 value ++ List.replicate places '0' := by
  induction places with
  | zero => simp
  | succ places ih =>
    have more : 0 < value * 10 ^ places := by positivity
    have next := Nat.toDigits_append_toDigits (b := 10) (n := value * 10 ^ places) (d := 0) (by decide) more (by decide)
    rw [ih,Nat.toDigits_zero] at next
    rw [pow_succ,show value * (10 ^ places * 10) = 10 * (value * 10 ^ places) + 0 by ring,← next,List.append_assoc,
      List.replicate_succ']

theorem candidate_exact {value count : Nat} (small : value < 2 ^ 53)
    (short : count ≤ Nat.log 10 value + 1) :
    candidate value count = if 10 ^ (Nat.log 10 value + 1 - count) ∣ value then
      some (value / 10 ^ (Nat.log 10 value + 1 - count)) else none := by
  obtain ⟨places,total⟩ : ∃ places, Nat.log 10 value + 1 = count + places := ⟨_,(Nat.add_sub_cancel' short).symm⟩
  have scale : (10 : ℚ) ^ ((count : ℤ) - (Int.log 10 (value : ℚ) + 1)) = ((10 ^ places : Nat) : ℚ)⁻¹ := by
    have log : Int.log 10 (value : ℚ) = Nat.log 10 value := Int.log_natCast 10 value
    rw [log,show (count : ℤ) - (Nat.log 10 value + 1) = -(places : ℤ) by omega,zpow_neg,zpow_natCast]
    push_cast
    rfl
  have low : ⌊(value : ℚ) * ((10 ^ places : Nat) : ℚ)⁻¹⌋.toNat = value / 10 ^ places := by
    rw [← div_eq_mul_inv,Int.floor_toNat,Nat.floor_div_eq_div]
  have reads : ∀ digits : Nat, (nearest (digits / ((10 ^ places : Nat) : ℚ)⁻¹) = value) ↔ digits * 10 ^ places = value := by
    intro digits
    rw [div_inv_eq_mul,← Nat.cast_mul]
    exact nearest_exact small
  have past : (value / 10 ^ places + 1) * 10 ^ places ≠ value := by
    have beyond := Nat.lt_mul_div_succ value (show 0 < 10 ^ places by positivity)
    rw [mul_comm]
    omega
  have places_eq : Nat.log 10 value + 1 - count = places := by omega
  have divides : value / 10 ^ places * 10 ^ places = value ↔ 10 ^ places ∣ value :=
    ⟨fun same => ⟨value / 10 ^ places,by rw [mul_comm,same]⟩,Nat.div_mul_cancel⟩
  rw [places_eq]
  unfold candidate
  simp only [scale,low,reads,past,decide_false,Bool.not_false,Bool.true_or,Bool.and_true,divides,decide_eq_true_eq,
    Bool.false_eq_true,if_false]

theorem few_digits {value : Nat} (small : value < 2 ^ 53) : Nat.log 10 value + 1 ≤ 16 := by
  have bound : Nat.log 10 value < 16 := Nat.log_lt_of_lt_pow' (by decide) (lt_trans small (by decide))
  omega

theorem shortest_exact {value : Nat} (small : value < 2 ^ 53) :
    ∃ digits count, shortest value = some (digits,count) ∧ count ≤ Nat.log 10 value + 1 ∧
      digits * 10 ^ (Nat.log 10 value + 1 - count) = value := by
  let size := Nat.log 10 value + 1
  have few := few_digits small
  let attempt : Nat → Option (Nat × Nat) := fun index =>
    (candidate value (index + 1)).map fun digits => (digits,index + 1)
  have last : attempt (size - 1) ≠ none := by
    have all : size - 1 + 1 = size := Nat.sub_add_cancel (Nat.succ_pos _)
    simp only [attempt,all,candidate_exact small (le_refl size)]
    simp [size]
  obtain ⟨answer,found⟩ : ∃ answer, (List.range 17).findSome? attempt = some answer := by
    refine Option.isSome_iff_exists.mp (List.findSome?_isSome_iff.mpr ⟨size - 1,?_,?_⟩)
    · exact List.mem_range.mpr (by omega)
    · exact Option.isSome_iff_ne_none.mpr last
  obtain ⟨before,index,rest,parts,here,silent⟩ := List.findSome?_eq_some_iff.mp found
  have early : index ≤ size - 1 := by
    by_contra late
    have sorted := parts ▸ List.pairwise_lt_range (n := 17)
    have member : size - 1 ∈ before ++ index::rest := parts ▸ List.mem_range.mpr (by omega)
    rcases List.mem_append.mp member with first | other
    · exact last (silent _ first)
    · rcases List.mem_cons.mp other with same | later
      · omega
      · have order := (List.pairwise_cons.mp (List.pairwise_append.mp sorted).2.1).1 _ later
        omega
  have short : index + 1 ≤ size := by omega
  simp only [attempt,candidate_exact small short] at here
  split at here
  · next divides =>
    cases Option.some.inj here
    exact ⟨_,_,found,short,Nat.div_mul_cancel divides⟩
  · cases here

theorem strip_exact (digits : List Char) :
    ∃ zeros, digits = stripZeros digits ++ List.replicate zeros '0' := by
  let zeros := digits.reverse.takeWhile fun char => decide (char = '0')
  have parts : zeros ++ digits.reverse.dropWhile (fun char => decide (char = '0')) = digits.reverse :=
    List.takeWhile_append_dropWhile
  have same : zeros = List.replicate zeros.length '0' := by
    have all : zeros.all (fun char => decide (char = '0')) = true := List.all_takeWhile
    exact List.eq_replicate_of_mem fun char member => of_decide_eq_true (List.all_eq_true.mp all char member)
  refine ⟨zeros.length,?_⟩
  have turned := congrArg List.reverse parts
  rw [List.reverse_append,List.reverse_reverse,same,List.reverse_replicate] at turned
  exact turned.symm

theorem positiveText_exact {value : Nat} (small : value < 2 ^ 53) (positive : 0 < value) :
    positiveText value = String.ofList (Nat.toDigits 10 value) := by
  obtain ⟨digits,count,found,short,same⟩ := shortest_exact small
  have some' : 0 < digits := by
    apply Nat.pos_of_ne_zero
    rintro rfl
    omega
  have shifted := toDigits_shift some' (Nat.log 10 value + 1 - count)
  rw [same] at shifted
  have size := log_ten positive
  have count_eq : (Nat.toDigits 10 digits).length = count := by
    rw [shifted,List.length_append,List.length_replicate] at size
    omega
  obtain ⟨zeros,stripped⟩ := strip_exact (Nat.toDigits 10 digits)
  have log : Int.log 10 (value : ℚ) = Nat.log 10 value := Int.log_natCast 10 value
  have few := few_digits small
  have point : Int.log 10 (value : ℚ) + 1 + ((Nat.toDigits 10 digits).length - count : ℤ) = (Nat.log 10 value + 1 : Nat) := by
    rw [log,count_eq]
    push_cast
    ring
  have lengths := congrArg List.length stripped
  rw [List.length_append,List.length_replicate,count_eq] at lengths
  simp only [positiveText,found,point]
  unfold layout
  rw [if_pos ⟨by omega,by omega⟩,shifted]
  congr 1
  rw [show ((Nat.log 10 value + 1 : Nat) - ((stripZeros (Nat.toDigits 10 digits)).length : ℤ)).toNat =
    zeros + (Nat.log 10 value + 1 - count) by omega,List.replicate_add,← List.append_assoc,← stripped]

theorem text_exact {value : ℤ} (small : value.natAbs < 2 ^ 53) : numberToString (toNumber value) = toString value := by
  have size : nearest |(value : ℚ)| = value.natAbs := by
    have same : |(value : ℚ)| = ((value.natAbs : Nat) : ℚ) := by
      rw [← Int.cast_abs,Int.abs_eq_natAbs]
      rfl
    rw [same,nearest_small small]
  have finite : ¬(2 : ℚ) ^ 1024 ≤ value.natAbs := by
    have bound : (value.natAbs : ℚ) < 2 ^ 53 := by exact_mod_cast small
    exact not_le_of_gt (lt_of_lt_of_le bound (pow_le_pow_right₀ (by norm_num) (by norm_num)))
  rw [Int.toString_eq_repr,Int.repr_eq_if]
  rcases lt_trichotomy value 0 with negative | rfl | positive
  · have below : (value : ℚ) < 0 := by exact_mod_cast negative
    have digits : 0 < value.natAbs := by omega
    have away : (-(value.natAbs : ℚ)) ≠ 0 := by
      have some' : (value.natAbs : ℚ) ≠ 0 := by exact_mod_cast digits.ne'
      exact neg_ne_zero.mpr some'
    have under : (-(value.natAbs : ℚ)) < 0 := by
      have some' : (0 : ℚ) < value.natAbs := by exact_mod_cast digits
      linarith
    simp only [toNumber,size,finite,if_false,below,if_true,numberToString,away,under,neg_neg,positiveText_exact small digits]
    rw [if_neg (by omega),Nat.repr_eq_ofList_toDigits,show (-value).toNat = value.natAbs by omega]
  · have zero : ¬((0 : ℤ) : ℚ) < 0 := by norm_num
    simp only [toNumber,size,finite,if_false,zero,numberToString]
    rfl
  · have above : ¬(value : ℚ) < 0 := by
      have some' : (0 : ℚ) < value := by exact_mod_cast positive
      linarith
    have digits : 0 < value.natAbs := by omega
    have away : (value.natAbs : ℚ) ≠ 0 := by exact_mod_cast digits.ne'
    have past : ¬(value.natAbs : ℚ) < 0 := not_lt_of_ge (Nat.cast_nonneg _)
    simp only [toNumber,size,finite,if_false,above,numberToString,away,past,positiveText_exact small digits]
    rw [if_pos (by omega),Nat.repr_eq_ofList_toDigits,show value.toNat = value.natAbs by omega]

end Zveltio.Binary64
