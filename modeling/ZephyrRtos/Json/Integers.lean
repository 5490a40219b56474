import Mathlib.Data.List.TakeWhile
import Mathlib.Tactic.Linarith

/-! Integer fields decoded from the number tokens of a JSON text. -/

namespace ZephyrRtos.Json

open List

def EINVAL : ℤ := 22
def ERANGE : ℤ := 34

def isNumberChar (c : Char) : Bool := c.isDigit || ['.', 'e', '+', '-'].contains c

/-- The number token that `lexer_json` emits at the start of the input; `fp` is
`CONFIG_JSON_LIBRARY_FP_SUPPORT`. -/
def lexerNumber (fp : Bool) : List Char → Option (List Char)
  | [] => none
  | c :: cs =>
    if c.isDigit || (c == '-' && cs.head?.any Char.isDigit) then
      some (c :: cs.takeWhile isNumberChar)
    else ["NaN".toList, "Infinity".toList, "-Infinity".toList].find?
      fun word => fp && word.isPrefixOf (c :: cs)

def convert (signed : Bool) (bits : ℕ) (v : ℤ) : ℤ :=
  if signed then v.bmod (2 ^ bits) else v % 2 ^ bits

def value (ds : List Char) : ℕ := ds.foldl (fun n c => n * 10 + (c.toNat - '0'.toNat)) 0

def magnitude (signed : Bool) (long : ℕ) (neg : Bool) : ℕ :=
  if signed then 2 ^ (long - 1) - (if neg then 0 else 1) else 2 ^ long - 1

structure Converted where
  value : ℤ
  errno : ℤ
  /-- The text from `endptr` on. -/
  rest : List Char

/-- `strtol` and `strtoll`, or `strtoul` and `strtoull`, of the C library in base ten, on a text
with no white space before it. -/
def strto (signed : Bool) (long : ℕ) (s : List Char) : Converted :=
  let neg := s.head? == some '-'
  let ds := if neg || s.head? == some '+' then s.tail else s
  let n := value (ds.takeWhile Char.isDigit)
  if ds.takeWhile Char.isDigit = [] then ⟨0, 0, s⟩
  else if magnitude signed long neg < n then
    ⟨if signed && neg then -magnitude signed long neg else magnitude signed long neg, ERANGE,
      ds.dropWhile Char.isDigit⟩
  else ⟨convert signed long (if neg then -n else n), 0, ds.dropWhile Char.isDigit⟩

/-- The result and the number, which is stored before the checks. -/
def decodeNum (signed : Bool) (bits long : ℕ) (token : List Char) : ℤ × ℤ :=
  let r := strto signed long token
  (if r.errno ≠ 0 then -r.errno else if r.rest ≠ [] then -EINVAL else 0,
    convert signed bits r.value)

variable (long : ℕ) (token : List Char) (num : ℤ)

def decodeInt32 : ℤ × ℤ := decodeNum true 32 long token
def decodeUint32 : ℤ × ℤ := decodeNum false 32 long token
def decodeInt64 : ℤ × ℤ := decodeNum true 64 64 token
def decodeUint64 : ℤ × ℤ := decodeNum false 64 64 token

def decodeNarrow (lo hi : ℤ) (r : ℤ × ℤ) : ℤ × ℤ :=
  if r.1 ≠ 0 then (r.1, num)
  else if r.2 < lo ∨ hi < r.2 then (-EINVAL, num)
  else (0, r.2)

def decodeInt8 : ℤ × ℤ := decodeNarrow num (-128) 127 (decodeInt32 long token)
def decodeUint8 : ℤ × ℤ := decodeNarrow num 0 255 (decodeUint32 long token)
def decodeInt16 : ℤ × ℤ := decodeNarrow num (-32768) 32767 (decodeInt32 long token)
def decodeUint16 : ℤ × ℤ := decodeNarrow num 0 65535 (decodeUint32 long token)

def decodeInt : ℕ → ℤ × ℤ
  | 1 => decodeInt8 long token num
  | 2 => decodeInt16 long token num
  | 4 => decodeInt32 long token
  | 8 => decodeInt64 token
  | _ => (-EINVAL, num)

def decodeUint : ℕ → ℤ × ℤ
  | 1 => decodeUint8 long token num
  | 2 => decodeUint16 long token num
  | 4 => decodeUint32 long token
  | 8 => decodeUint64 token
  | _ => (-EINVAL, num)

def decode (signed : Bool) : ℕ → ℤ × ℤ :=
  if signed then decodeInt long token num else decodeUint long token num

/-- The integer that a token writes in decimal. -/
def decimal (s : List Char) : Option ℤ :=
  let neg := s.head? == some '-'
  let ds := if neg then s.tail else s
  if ds ≠ [] ∧ ds.all Char.isDigit then some (if neg then -value ds else value ds) else none

/-- The C library converts `v` without a range error. -/
def InLong (signed : Bool) (v : ℤ) : Prop := v.natAbs ≤ magnitude signed long (v < 0)

def Representable (signed : Bool) (bits : ℕ) (v : ℤ) : Prop :=
  if signed then -2 ^ (bits - 1) ≤ v ∧ v < 2 ^ (bits - 1) else 0 ≤ v ∧ v < 2 ^ bits

/-- Decoding succeeds exactly for the integers of the field, and an error leaves the field. -/
def Exact (signed : Bool) (bits : ℕ) (r : ℤ × ℤ) : Prop :=
  (r.1 = 0 ↔ ∃ v, decimal token = some v ∧ Representable signed bits v) ∧
  (∀ v, decimal token = some v → Representable signed bits v → r.2 = v) ∧
  (r.1 ≠ 0 → r.2 = num)

/-- The token is an integer of the field; or the field is narrow and the 32-bit number that the
C library gives, if it gives one, is not of the field. -/
def Faithful (signed : Bool) (size : ℕ) : Prop :=
  (∃ v, decimal token = some v ∧ Representable signed (8 * size) v) ∨
  size ≤ 2 ∧ ∀ v, decimal token = some v → InLong long signed v →
    ¬ Representable signed (8 * size) (convert signed 32 v)

theorem lexerNumber_head (h : lexerNumber fp input = some token) :
    token ≠ [] ∧ token.head? ≠ some '+' := by
  cases input with
  | nil => cases h
  | cons c cs =>
    simp only [lexerNumber] at h
    split at h
    case isTrue hc =>
      cases h
      refine ⟨by simp, ?_⟩
      rintro ⟨⟩
      simp at hc
    case isFalse =>
      have hword := mem_of_find?_eq_some h
      simp only [mem_cons, not_mem_nil, or_false] at hword
      rcases hword with rfl | rfl | rfl <;> decide

variable {long token num} {signed : Bool} {bits : ℕ}

theorem convert_convert (h : bits ≤ long) :
    convert signed bits (convert signed long v) = convert signed bits v := by
  cases signed
  · exact Int.emod_emod_of_dvd _ (pow_dvd_pow 2 h)
  · exact Int.bmod_bmod_of_dvd (pow_dvd_pow 2 h)

theorem Representable.mono (h0 : 0 < bits) (hbits : bits ≤ long)
    (h : Representable signed bits v) : Representable signed long v := by
  have hp : (2 : ℤ) ^ (bits - 1) ≤ 2 ^ (long - 1) := pow_le_pow_right₀ (by norm_num) (by omega)
  have hq : (2 : ℤ) ^ bits ≤ 2 ^ long := pow_le_pow_right₀ (by norm_num) hbits
  cases signed <;> simp only [Representable, Bool.false_eq_true, ↓reduceIte] at h ⊢ <;> omega

theorem Representable.convert (h0 : 0 < bits) (h : Representable signed bits v) :
    Json.convert signed bits v = v := by
  obtain ⟨bits, rfl⟩ := Nat.exists_eq_succ_of_ne_zero h0.ne'
  cases signed
  · exact Int.emod_eq_of_lt h.1 h.2
  · simp only [Representable, Json.convert, ↓reduceIte, Nat.succ_sub_one] at h ⊢
    apply Int.bmod_eq_of_le <;> push_cast <;> omega

theorem inLong_iff (neg : Bool) (n : ℕ) :
    InLong long signed (if neg then -n else n) ↔ n ≤ magnitude signed long neg := by
  simp only [InLong]
  cases neg
  · have : ¬ (n : ℤ) < 0 := by omega
    simp [this]
  · rcases n.eq_zero_or_pos with rfl | hn <;> simp [*]

theorem Representable.inLong (h : Representable signed long v) : InLong long signed v := by
  have hp : 1 ≤ 2 ^ (long - 1) := Nat.one_le_two_pow
  have hq : 1 ≤ 2 ^ long := Nat.one_le_two_pow
  obtain ⟨n, rfl | rfl⟩ := v.eq_nat_or_neg
  · refine (inLong_iff false n).2 ?_
    cases signed <;> simp only [Representable, magnitude, Bool.false_eq_true, ↓reduceIte] at h ⊢ <;>
      zify [hp, hq] <;> omega
  · refine (inLong_iff true n).2 ?_
    cases signed <;>
      simp only [Representable, magnitude, Bool.false_eq_true, ↓reduceIte, Nat.sub_zero] at h ⊢ <;>
      zify [hq] <;> omega

theorem exact_of_eq (hdec : decimal token = some v) (hrep : Representable signed bits v)
    (h : r = (0, v)) : Exact token num signed bits r := by
  subst h
  refine ⟨iff_of_true rfl ⟨v, hdec, hrep⟩, ?_, fun h => absurd rfl h⟩
  rintro w hw -
  exact Option.some.inj (hdec.symm.trans hw)

section

variable (htoken : token ≠ [] ∧ token.head? ≠ some '+')
include htoken

variable (signed) in
theorem decodeNum_spec (hbits : bits ≤ long) :
    ((decodeNum signed bits long token).1 = 0 ↔
      ∃ v, decimal token = some v ∧ InLong long signed v) ∧
    ∀ v, decimal token = some v → InLong long signed v →
      (decodeNum signed bits long token).2 = convert signed bits v := by
  have hp : (token.head? == some '+') = false := beq_false_of_ne htoken.2
  have hne := htoken.1
  simp only [decodeNum, strto, decimal, hp, Bool.or_false, all_eq_true]
  generalize (token.head? == some '-') = neg
  generalize (if neg then token.tail else token) = ds
  by_cases hd : ds ≠ [] ∧ ∀ c ∈ ds, c.isDigit
  · have hdrop : ds.dropWhile Char.isDigit = [] := dropWhile_eq_nil_iff.2 hd.2
    simp only [if_pos hd, Option.some.injEq, exists_eq_left', forall_eq', inLong_iff,
      takeWhile_eq_self_iff.2 hd.2, if_neg hd.1, hdrop]
    split
    case isTrue h => simp [ERANGE, not_le.2 h]
    case isFalse h => simp [not_lt.1 h, convert_convert hbits]
  · simp only [if_neg hd, reduceCtorEq, false_and, exists_false, iff_false, false_imp_iff,
      implies_true, and_true]
    split
    case isTrue => simp [EINVAL]
    case isFalse hrun =>
      have hdrop : ds.dropWhile Char.isDigit ≠ [] := by
        rw [Ne, dropWhile_eq_nil_iff]
        refine fun hall => hd ⟨?_, hall⟩
        rintro rfl
        exact hrun rfl
      split <;> simp [ERANGE, EINVAL]

theorem decodeNum_eq (hlong : wide ≤ long) (hbits : bits ≤ wide) (h0 : 0 < bits)
    (hdec : decimal token = some v) (hrep : Representable signed bits v) :
    decodeNum signed wide long token = (0, v) := by
  obtain ⟨hok, hval⟩ := decodeNum_spec signed htoken hlong
  have hin := (hrep.mono h0 (hbits.trans hlong)).inLong
  exact Prod.ext (hok.2 ⟨v, hdec, hin⟩)
    ((hval v hdec hin).trans ((hrep.mono h0 hbits).convert (h0.trans_le hbits)))

theorem exact_of_narrow (hlong : 32 ≤ long) (hbits : bits ≤ 32) (h0 : 0 < bits)
    (hrange : ∀ v, Representable signed bits v ↔ ¬ (v < lo ∨ hi < v))
    (hv : (∃ v, decimal token = some v ∧ Representable signed bits v) ∨
      ∀ v, decimal token = some v → InLong long signed v →
        ¬ Representable signed bits (convert signed 32 v)) :
    Exact token num signed bits (decodeNarrow num lo hi (decodeNum signed 32 long token)) := by
  by_cases hfield : ∃ v, decimal token = some v ∧ Representable signed bits v
  · obtain ⟨v, hdec, hrep⟩ := hfield
    refine exact_of_eq hdec hrep ?_
    rw [decodeNum_eq htoken hlong hbits h0 hdec hrep, decodeNarrow, if_neg (not_not.2 rfl),
      if_neg ((hrange v).1 hrep)]
  · -- the call fails before it stores
    have hfail : (decodeNarrow num lo hi (decodeNum signed 32 long token)).1 ≠ 0 ∧
        (decodeNarrow num lo hi (decodeNum signed 32 long token)).2 = num := by
      obtain ⟨hok, hval⟩ := decodeNum_spec signed htoken hlong
      simp only [decodeNarrow]
      split
      case isTrue h => exact ⟨h, rfl⟩
      case isFalse h =>
        obtain ⟨v, hdec, hin⟩ := hok.1 (not_not.1 h)
        have hout := hv.resolve_left hfield v hdec hin
        rw [← hval v hdec hin, hrange, not_not] at hout
        rw [if_pos hout]
        exact ⟨show -EINVAL ≠ 0 by decide, rfl⟩
    exact ⟨iff_of_false hfail.1 hfield, fun v hdec hrep => absurd ⟨v, hdec, hrep⟩ hfield,
      fun _ => hfail.2⟩

end

end ZephyrRtos.Json
