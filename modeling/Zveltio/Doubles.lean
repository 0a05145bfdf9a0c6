import Zveltio.Binary64
import Zveltio.IpText
import Mathlib.Tactic.NormNum
namespace Zveltio.Doubles
open Binary64

theorem halfEven_near {value : ℚ} {whole : ℤ} (close : |value - whole| < 1 / 2) : halfEven value = whole := by
  obtain ⟨above,below⟩ := abs_lt.mp close
  rcases lt_or_ge value whole with under | beyond
  · have floor : ⌊value⌋ = whole - 1 := by
      rw [Int.floor_eq_iff]
      push_cast
      constructor <;> linarith
    have fract : Int.fract value = value - whole + 1 := by
      rw [Int.fract,floor]
      push_cast
      ring
    rw [halfEven,if_neg (by rw [fract]; linarith),if_pos (by rw [fract]; linarith),floor]
    ring
  · have floor : ⌊value⌋ = whole := by
      rw [Int.floor_eq_iff]
      constructor <;> linarith
    have fract : Int.fract value = value - whole := by rw [Int.fract,floor]
    rw [halfEven,if_pos (by rw [fract]; linarith),floor]

theorem nearest_near {value target : ℚ} {steps : ℤ} (multiple : target = steps * spacing value)
    (close : |value - target| < spacing value / 2) : nearest value = target := by
  have positive := spacing_pos value
  have apart : value / spacing value - steps = (value - target) / spacing value := by
    rw [multiple]
    field_simp
  have near : |value / spacing value - steps| < 1 / 2 := by
    rw [apart,abs_div,abs_of_pos positive,div_lt_iff₀ positive]
    linarith
  rw [nearest,halfEven_near near,multiple]

theorem zpow_two_step (power : ℤ) : (2 : ℚ) ^ (power + 1) = 2 * 2 ^ power := by
  rw [zpow_add₀ (by norm_num),zpow_one]
  ring

theorem zpow_two_lt {low high : ℤ} (less : (2 : ℚ) ^ low < 2 ^ high) : low < high :=
  (zpow_lt_zpow_iff_right₀ (by norm_num)).mp less

theorem spacing_wide {value : ℚ} : value < 2 ^ 53 * spacing value := by
  have under := Int.lt_zpow_succ_log_self (b := 2) (by decide) value
  have wide : (2 : ℚ) ^ (Int.log 2 value - 52) ≤ spacing value :=
    zpow_le_zpow_right₀ (by norm_num) (le_max_left _ _)
  have split : ((2 : Nat) : ℚ) ^ (Int.log 2 value + 1) = 2 ^ (53 : ℕ) * 2 ^ (Int.log 2 value - 52) := by
    rw [← zpow_natCast,← zpow_add₀ (by norm_num)]
    congr 1
    push_cast
    ring
  rw [split] at under
  linarith

theorem power_spacing (power : ℤ) (more : ℕ) : (2 : ℚ) ^ (power + more) = 2 ^ more * 2 ^ power := by
  rw [zpow_add₀ (by norm_num),zpow_natCast]
  ring

theorem spacing_order {value : ℚ} (order : ℤ) (same : Int.log 2 value = order) : spacing value = 2 ^ max (order - 52) (-1074) := by
  rw [spacing,same]

theorem log_close {double value : ℚ} (positive : 0 < double) (close : |value - double| < double / 2 ^ 54) :
    Int.log 2 double - 1 ≤ Int.log 2 value ∧ Int.log 2 value ≤ Int.log 2 double + 1 := by
  obtain ⟨above,below⟩ := abs_lt.mp close
  have fine : double / 2 ^ 54 < double / 2 := by
    rw [div_lt_div_iff₀ (by norm_num) (by norm_num)]
    linarith
  have reached : (2 : ℚ) ^ Int.log 2 double ≤ double := by exact_mod_cast Int.zpow_log_le_self (b := 2) (by decide) positive
  have under : double < 2 ^ (Int.log 2 double + 1) := by exact_mod_cast Int.lt_zpow_succ_log_self (b := 2) (by decide) double
  constructor
  · have half : (2 : ℚ) ^ (Int.log 2 double - 1) ≤ double / 2 := by
      have step := zpow_two_step (Int.log 2 double - 1)
      rw [sub_add_cancel] at step
      linarith
    exact (Int.zpow_le_iff_le_log (b := 2) (by decide) (by linarith)).mp (by push_cast; linarith)
  · have twice : value < 2 ^ (Int.log 2 double + 1 + 1) := by
      rw [zpow_two_step]
      linarith
    exact Int.lt_add_one_iff.mp ((Int.lt_zpow_iff_log_lt (b := 2) (by decide) (by linarith)).mp (by exact_mod_cast twice))

theorem nearest_close {double value : ℚ} (positive : 0 < double) (exact : nearest double = double)
    (close : |value - double| < double / 2 ^ 54) : nearest value = double := by
  obtain ⟨low,high⟩ := log_close positive close
  generalize scale : Int.log 2 double = order at low high
  obtain ⟨steps,multiple⟩ : ∃ steps : ℤ, double = steps * spacing double := ⟨_,exact.symm⟩
  have wide : double < 2 ^ 53 * spacing double := spacing_wide
  have half : |value - double| < spacing double / 2 := by
    refine lt_trans close ?_
    rw [div_lt_iff₀ (by norm_num)]
    linarith
  by_cases same : spacing value = spacing double
  · exact @nearest_near value double steps (by rw [same]; exact multiple) (by rw [same]; exact half)
  · have value_positive : 0 < value := by
      have := (abs_lt.mp close).1
      have fine : double / 2 ^ 54 < double := by
        rw [div_lt_iff₀ (by norm_num)]
        linarith
      linarith
    have reached : (2 : ℚ) ^ order ≤ double := by
      have := Int.zpow_log_le_self (b := 2) (by decide) positive
      rw [scale] at this
      exact_mod_cast this
    have under : double < 2 ^ (order + 1) := by
      have := Int.lt_zpow_succ_log_self (b := 2) (by decide) double
      rw [scale] at this
      exact_mod_cast this
    have step_positive := spacing_pos double
    have changed : ∀ later, Int.log 2 value = later → max (later - 52) (-1074) ≠ max (order - 52) (-1074) := by
      intro later found equal
      exact same (by rw [spacing_order later found,spacing_order order scale,equal])
    obtain ⟨later,found⟩ : ∃ later, Int.log 2 value = later := ⟨_,rfl⟩
    have differs := changed later found
    rw [found] at low high
    have normal : -1074 ≤ order - 52 := by omega
    have step : spacing double = 2 ^ (order - 52) := by rw [spacing_order order scale,max_eq_left normal]
    have floor : (2 : ℚ) ^ order = 2 ^ 52 * spacing double := by
      rw [step,show order = order - 52 + (52 : ℕ) by push_cast; ring,power_spacing]
      push_cast
      ring_nf
    obtain ⟨above,below⟩ := abs_lt.mp half
    rcases lt_trichotomy later order with less | equal | more
    · have top : value < 2 ^ order := by
        have := Int.lt_zpow_succ_log_self (b := 2) (by decide) value
        rw [found,show later + 1 = order by omega] at this
        exact_mod_cast this
      have few : steps < 2 ^ 52 + 1 := by
        have bound : (steps : ℚ) * spacing double < (2 ^ 52 + 1) * spacing double := by
          rw [← multiple]
          linarith
        have := lt_of_mul_lt_mul_right bound step_positive.le
        exact_mod_cast this
      have many : 2 ^ 52 ≤ steps := by
        have bound : (2 : ℚ) ^ 52 * spacing double ≤ steps * spacing double := by rw [← multiple,← floor]; exact reached
        have := le_of_mul_le_mul_right bound step_positive
        exact_mod_cast this
      have whole : steps = 2 ^ 52 := by omega
      have finer : spacing double = 2 * spacing value := by
        rw [step,spacing_order later found,max_eq_left (by omega),← zpow_two_step]
        congr 1
        omega
      refine @nearest_near value double (2 ^ 53) ?_ ?_
      · rw [multiple,whole,finer]
        push_cast
        ring
      · refine lt_of_lt_of_eq close ?_
        rw [multiple,whole,finer]
        push_cast
        ring
    · exact absurd (by rw [equal]) differs
    · have bottom : 2 ^ (order + 1) ≤ value := by
        have := Int.zpow_log_le_self (b := 2) (by decide) value_positive
        rw [found,show later = order + 1 by omega] at this
        exact_mod_cast this
      rw [zpow_two_step,floor] at under bottom
      have few : steps < 2 ^ 53 := by
        have bound : (steps : ℚ) * spacing double < 2 ^ 53 * spacing double := by
          rw [← multiple]
          linarith
        have := lt_of_mul_lt_mul_right bound step_positive.le
        exact_mod_cast this
      have most : double ≤ (2 ^ 53 - 1) * spacing double := by
        have bound : (steps : ℚ) ≤ 2 ^ 53 - 1 := by
          have : steps ≤ 2 ^ 53 - 1 := by omega
          exact_mod_cast this
        calc double = steps * spacing double := multiple
          _ ≤ (2 ^ 53 - 1) * spacing double := mul_le_mul_of_nonneg_right bound step_positive.le
      linarith

-- The power of ten that makes an integer of that many digits of a number.
def scaleOf (value : ℚ) (count : Nat) : ℚ := (10 : ℚ) ^ ((count : ℤ) - (Int.log 10 value + 1))

theorem scaleOf_pos (value : ℚ) (count : Nat) : 0 < scaleOf value count := zpow_pos (by norm_num) _

theorem candidate_reads (found : candidate double count = some digits) : nearest (digits / scaleOf double count) = double := by
  unfold candidate at found
  simp only [Bool.and_eq_true] at found
  split at found
  · next chosen =>
    rw [← Option.some.inj found]
    exact of_decide_eq_true chosen.1
  · split at found
    · next chosen =>
      rw [← Option.some.inj found]
      exact of_decide_eq_true chosen
    · cases found

theorem candidate_some {double : ℚ} (count : Nat)
    (reads : nearest ((⌊double * scaleOf double count⌋.toNat : Nat) / scaleOf double count) = double ∨
      nearest ((⌊double * scaleOf double count⌋.toNat + 1 : Nat) / scaleOf double count) = double) :
    (candidate double count).isSome = true := by
  unfold candidate
  unfold scaleOf at reads
  dsimp only
  split
  · rfl
  · next refused =>
    rcases reads with low | high
    · simp only [Bool.and_eq_true,decide_eq_true_eq,not_and,Bool.or_eq_true,not_or,Bool.not_eq_true',decide_eq_false_iff_not,
        not_not] at refused
      rw [if_pos (decide_eq_true (refused low).1.1)]
      rfl
    · rw [if_pos (decide_eq_true high)]
      rfl

theorem candidate_seventeen {double : ℚ} (positive : 0 < double) (exact : nearest double = double) :
    (candidate double 17).isSome = true := by
  have scale_positive := scaleOf_pos double 17
  generalize known : scaleOf double 17 = scale at scale_positive
  have large : 10 ^ 16 ≤ double * scale := by
    have reached : (10 : ℚ) ^ Int.log 10 double ≤ double := by
      exact_mod_cast Int.zpow_log_le_self (b := 10) (by decide) positive
    calc (10 : ℚ) ^ 16 = 10 ^ Int.log 10 double * scale := by
          rw [← known,scaleOf,← zpow_add₀ (by norm_num),← zpow_natCast]
          congr 1
          push_cast
          ring
      _ ≤ double * scale := mul_le_mul_of_nonneg_right reached scale_positive.le
  have low : ((⌊double * scale⌋.toNat : Nat) : ℚ) = ⌊double * scale⌋ := by
    have above : 0 ≤ ⌊double * scale⌋ := Int.floor_nonneg.mpr (by linarith)
    exact_mod_cast Int.toNat_of_nonneg above
  have under := Int.floor_le (double * scale)
  have past := Int.lt_floor_add_one (double * scale)
  have close : ∀ digits : ℚ, |digits - double * scale| ≤ 1 / 2 → nearest (digits / scale) = double := by
    intro digits near
    refine nearest_close positive exact ?_
    have apart : digits / scale - double = (digits - double * scale) / scale := by field_simp
    rw [apart,abs_div,abs_of_pos scale_positive,div_lt_iff₀ scale_positive]
    linarith
  refine candidate_some 17 ?_
  rw [known]
  rcases le_or_gt (double * scale - ⌊double * scale⌋) (1 / 2) with lower | upper
  · refine .inl (close _ ?_)
    rw [low,abs_le]
    constructor <;> linarith
  · refine .inr (close _ ?_)
    push_cast
    rw [low,abs_le]
    constructor <;> linarith

theorem shortest_some {double : ℚ} (positive : 0 < double) (exact : nearest double = double) :
    ∃ digits count, shortest double = some (digits,count) ∧ nearest (digits / scaleOf double count) = double := by
  have last := candidate_seventeen positive exact
  have found : (shortest double).isSome = true := by
    rw [shortest,List.findSome?_isSome_iff]
    refine ⟨16,by decide,?_⟩
    rw [Option.isSome_map]
    exact last
  obtain ⟨answer,found⟩ := Option.isSome_iff_exists.mp found
  obtain ⟨index,_,here⟩ := List.exists_of_findSome?_eq_some found
  obtain ⟨digits,chosen,rfl⟩ := Option.map_eq_some_iff.mp here
  exact ⟨digits,index + 1,found,candidate_reads chosen⟩

-- A decimal numeral: what stands before and behind the point, and the exponent where there is one.
structure Spelling where
  whole : List Char
  fraction : List Char
  power : Option Int

def fractionText (fraction : List Char) : List Char := if fraction = [] then [] else '.'::fraction

def powerText : Option Int → List Char
  | none => []
  | some power => 'e'::(if 0 < power then '+' else '-')::Nat.toDigits 10 power.natAbs

def Spelling.text (spelling : Spelling) : List Char :=
  spelling.whole ++ fractionText spelling.fraction ++ powerText spelling.power

def Spelling.value (spelling : Spelling) : ℚ :=
  Nat.ofDigitChars 10 (spelling.whole ++ spelling.fraction) 0 * (10 : ℚ) ^ (spelling.power.getD 0 - spelling.fraction.length)

structure Spelling.Sound (spelling : Spelling) : Prop where
  some' : spelling.whole ≠ []
  whole : ∀ char ∈ spelling.whole, char.isDigit = true
  lead : spelling.whole.head? = some '0' → spelling.whole = ['0']
  fraction : ∀ char ∈ spelling.fraction, char.isDigit = true

def spelled (digits : List Char) (point : Int) : Spelling :=
  let count : Int := digits.length
  if count ≤ point ∧ point ≤ 21 then ⟨digits ++ List.replicate (point - count).toNat '0',[],none⟩
  else if 0 < point ∧ point ≤ 21 then ⟨digits.take point.toNat,digits.drop point.toNat,none⟩
  else if -6 < point ∧ point ≤ 0 then ⟨['0'],List.replicate (-point).toNat '0' ++ digits,none⟩
  else ⟨digits.take 1,digits.drop 1,some (point - 1)⟩

section
variable {digits : List Char} {point : Int}

theorem layout_spelled (some' : digits ≠ []) : (layout digits point).toList = (spelled digits point).text := by
  unfold layout spelled
  dsimp only
  split_ifs with round split small large
  · simp [Spelling.text,fractionText,powerText]
  · have behind : digits.drop point.toNat ≠ [] := by
      intro nothing
      rw [List.drop_eq_nil_iff] at nothing
      omega
    simp [Spelling.text,fractionText,powerText,behind]
  · simp [Spelling.text,fractionText,powerText,some']
  all_goals
    obtain ⟨first,rest,rfl⟩ := List.exists_cons_of_ne_nil some'
    cases rest <;> simp [Spelling.text,fractionText,powerText] <;> omega

theorem spelled_value (some' : digits ≠ []) :
    (spelled digits point).value = Nat.ofDigitChars 10 digits 0 * (10 : ℚ) ^ (point - digits.length) := by
  have counted : 0 < digits.length := List.length_pos_iff.mpr some'
  unfold spelled Spelling.value
  dsimp only
  split_ifs with round split small
  · obtain ⟨zeros,rfl⟩ : ∃ zeros : Nat, point = digits.length + zeros := ⟨(point - digits.length).toNat,by omega⟩
    simp only [List.append_nil,add_sub_cancel_left,Int.toNat_natCast,Nat.ofDigitChars_append,Nat.ofDigitChars_replicate_zero,
      Option.getD_none,List.length_nil,Nat.cast_zero,sub_zero,zpow_zero,mul_one,zpow_natCast]
    push_cast
    ring
  · obtain ⟨places,rfl⟩ : ∃ places : Nat, point = places := ⟨point.toNat,by omega⟩
    simp only [Int.toNat_natCast,List.take_append_drop,List.length_drop,Option.getD_none]
    rw [show (0 : ℤ) - (digits.length - places : ℕ) = places - digits.length by omega]
  · obtain ⟨zeros,rfl⟩ : ∃ zeros : Nat, point = -zeros := ⟨(-point).toNat,by omega⟩
    simp only [List.cons_append,List.nil_append,neg_neg,Int.toNat_natCast,Nat.ofDigitChars_cons,Nat.ofDigitChars_append,
      Nat.ofDigitChars_replicate_zero,List.length_append,List.length_replicate,Option.getD_none,Nat.sub_self,Nat.add_zero,
      mul_zero,Nat.cast_add]
    rw [show (0 : ℤ) - (zeros + digits.length) = -zeros - digits.length by ring]
  · have one : (digits.drop 1).length = digits.length - 1 := List.length_drop
    simp only [List.take_append_drop,one,Option.getD_some]
    rw [show point - 1 - (digits.length - 1 : ℕ) = point - digits.length by omega]

theorem spelled_sound (some' : digits ≠ []) (decimal : ∀ char ∈ digits, char.isDigit = true) (lead : digits.head? ≠ some '0') :
    (spelled digits point).Sound := by
  have zeros : ∀ count, ∀ char ∈ List.replicate count '0', char.isDigit = true := by
    intro count char held
    rw [List.eq_of_mem_replicate held]
    rfl
  have leading : ∀ whole fraction power, whole ≠ [] → whole <+: digits → (∀ char ∈ fraction, char.isDigit = true) →
      Spelling.Sound ⟨whole,fraction,power⟩ := by
    intro whole fraction power held front behind
    obtain ⟨first,rest,rfl⟩ := List.exists_cons_of_ne_nil held
    obtain ⟨tail,rfl⟩ := front
    exact ⟨held,fun char member => decimal char (List.mem_append_left _ member),fun zero => absurd zero lead,behind⟩
  have counted : 0 < digits.length := List.length_pos_iff.mpr some'
  have dropped : ∀ count, ∀ char ∈ digits.drop count, char.isDigit = true :=
    fun count char member => decimal char (List.mem_of_mem_drop member)
  unfold spelled
  dsimp only
  split_ifs with round split small
  · refine ⟨by simp [some'],?_,?_,by simp⟩
    · intro char member
      rcases List.mem_append.mp member with front | back
      · exact decimal char front
      · exact zeros _ char back
    · intro zero
      rw [List.head?_append_of_ne_nil _ some'] at zero
      exact absurd zero lead
  · exact leading _ _ _ (by simp [some']; omega) (List.take_prefix _ _) (dropped _)
  · refine ⟨by simp,by simp,fun _ => rfl,?_⟩
    intro char member
    rcases List.mem_append.mp member with front | back
    · exact zeros _ char front
    · exact decimal char back
  · exact leading _ _ _ (by simp [some']) (List.take_prefix _ _) (dropped _)

end

-- A finite double; zero has both signs.
structure Double where
  negative : Bool
  size : ℚ
  above : 0 ≤ size
  exact : nearest size = size
  below : size < 2 ^ 1024
  deriving DecidableEq

inductive Number where
  | finite (double : Double)
  | infinite (negative : Bool)
  deriving DecidableEq

def signed (negative : Bool) (text : List Char) : List Char := if negative then '-'::text else text

-- Number::toString leaves the sign of zero out.
def Double.text (double : Double) : List Char :=
  if double.size = 0 then ['0'] else signed double.negative (positiveText double.size).toList

def ofDecimal (negative : Bool) (value : ℚ) : Number :=
  if checked : 0 ≤ nearest value ∧ nearest (nearest value) = nearest value ∧ nearest value < 2 ^ 1024 then
    .finite ⟨negative,nearest value,checked.1,checked.2.1,checked.2.2⟩
  else .infinite negative

def Double.unsigned (double : Double) : Double :=
  if double.size = 0 then { double with negative := false } else double

theorem ofDecimal_reads (double : Double) (read : nearest value = double.size) (negative : Bool) :
    ofDecimal negative value = .finite { double with negative := negative } := by
  unfold ofDecimal
  rw [dif_pos (by rw [read]; exact ⟨double.above,double.exact,double.below⟩)]
  congr 1
  rw [Double.mk.injEq]
  exact ⟨rfl,read⟩

theorem nearest_zero : nearest 0 = 0 := by
  rw [nearest,zero_div]
  have zero := halfEven_int 0
  rw [Int.cast_zero] at zero
  rw [zero]
  simp

theorem positiveText_spelled {double : ℚ} (positive : 0 < double) (exact : nearest double = double) :
    ∃ spelling : Spelling, spelling.Sound ∧ (positiveText double).toList = spelling.text ∧
      nearest spelling.value = double := by
  obtain ⟨digits,count,found,reads⟩ := shortest_some positive exact
  have some' : 0 < digits := by
    apply Nat.pos_of_ne_zero
    rintro rfl
    rw [Nat.cast_zero,zero_div,nearest_zero] at reads
    exact absurd reads positive.ne
  obtain ⟨zeros,parts⟩ := strip_exact (Nat.toDigits 10 digits)
  generalize known : stripZeros (Nat.toDigits 10 digits) = solid at parts
  have whole : digits = 10 ^ zeros * Nat.ofDigitChars 10 solid 0 := by
    rw [← Nat.ofDigitChars_replicate_zero,← Nat.ofDigitChars_append,← parts,Nat.ofDigitChars_ten_toDigits]
  have held : solid ≠ [] := by
    rintro rfl
    rw [Nat.ofDigitChars_nil,mul_zero] at whole
    omega
  have decimal : ∀ char ∈ solid, char.isDigit = true := by
    intro char member
    exact Nat.isDigit_of_mem_toDigits (b := 10) (by decide) (by decide) (by rw [parts]; exact List.mem_append_left _ member)
  have lead : solid.head? ≠ some '0' := by
    have first := IpText.toDigits_lead some'
    rwa [parts,List.head?_append_of_ne_nil _ held] at first
  let point : Int := Int.log 10 double + 1 + ((Nat.toDigits 10 digits).length - count)
  refine ⟨spelled solid point,spelled_sound held decimal lead,?_,?_⟩
  · rw [← layout_spelled held,positiveText,found]
    simp only [known,point]
  · rw [spelled_value held]
    have long := congrArg List.length parts
    rw [List.length_append,List.length_replicate] at long
    have same : (Nat.ofDigitChars 10 solid 0 : ℚ) * 10 ^ (point - solid.length) = digits / scaleOf double count := by
      rw [scaleOf,div_eq_mul_inv,← zpow_neg]
      conv_rhs => rw [whole]
      push_cast
      rw [mul_comm ((10 : ℚ) ^ zeros),mul_assoc,← zpow_natCast,← zpow_add₀ (by norm_num)]
      congr 2
      simp only [point]
      push_cast [long]
      ring
    rw [same,reads]

end Zveltio.Doubles
