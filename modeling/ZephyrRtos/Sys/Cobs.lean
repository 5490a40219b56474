import Mathlib.Data.List.Basic
import Mathlib.Data.Int.Notation

/-! Consistent overhead byte stuffing, in streams that are cut into calls. -/

namespace ZephyrRtos.Cobs

open List

def einval : ℤ := 22

structure Flags where
  delimiter : UInt8
  trailing : Bool

def Flags.mask (f : Flags) (buf : List UInt8) : List UInt8 := buf.map (· ^^^ f.delimiter)

def maxEncodedLen (f : Flags) (decodedSize : ℕ) : ℕ :=
  if f.trailing then decodedSize + decodedSize / 254 + 1 + 1 else decodedSize + decodedSize / 254 + 1

/-- `group` are the bytes of `fragment` behind its first one, which counts them all. -/
structure Encoder where
  group : List UInt8 := []

/-- `code_index` is the number of bytes that are left of a group. -/
structure Decoder where
  code : ℕ := 0xff
  codeIndex : ℕ := 0

section

variable {κ σ : Type} (cb : List UInt8 → σ → σ × ℤ) (f : Flags)

/-- A callback that fails ends the call and leaves the codec in its initial state. -/
def call (reset : κ) (buf : List UInt8) (user : σ) : Except (κ × σ × ℤ) σ :=
  let (user, ret) := cb buf user
  if ret < 0 then .error (reset, user, ret) else .ok user

def returns (value : ℤ) : Except (κ × σ × ℤ) (κ × σ) → κ × σ × ℤ
  | .ok (k, user) => (k, user, value)
  | .error r => r

def Encoder.code (enc : Encoder) : UInt8 := UInt8.ofNat (enc.group.length + 1)

def Encoder.fragment (enc : Encoder) : List UInt8 := enc.code :: enc.group

def encoderFinish (close : Bool) : Encoder × σ → Except (Encoder × σ × ℤ) (Encoder × σ)
  | (enc, user) => do
    let user ← call cb {} (f.mask enc.fragment) user
    let user ← if close && f.trailing then call cb {} [f.delimiter] user else pure user
    return ({}, user)

def finishFull (s : Encoder × σ) : Except (Encoder × σ × ℤ) (Encoder × σ) :=
  if s.1.code = 0xff then encoderFinish cb f false s else pure s

def encodeByte (s : Encoder × σ) (byte : UInt8) : Except (Encoder × σ × ℤ) (Encoder × σ) := do
  let s ← finishFull cb f s
  if byte = 0 then encoderFinish cb f false s
  else return (⟨s.1.group ++ [byte]⟩, s.2)

def encoderWrite (s : Encoder × σ) (buf : List UInt8) : Encoder × σ × ℤ :=
  returns buf.length (buf.foldlM (encodeByte cb f) s)

def encoderClose (s : Encoder × σ) : Encoder × σ × ℤ := returns 0 (encoderFinish cb f true s)

/-- The callback for a delimiter gets no bytes. -/
def decodeByte : Decoder × σ → UInt8 → Except (Decoder × σ × ℤ) (Decoder × σ)
  | (dec, user), byte =>
    let data := byte ^^^ f.delimiter
    if data = 0 then
      if !f.trailing || dec.codeIndex ≠ 0 then .error ({}, user, -einval)
      else return ({}, ← call cb {} [] user)
    else if dec.codeIndex > 0 then
      return ({ dec with codeIndex := dec.codeIndex - 1 }, ← call cb {} [data] user)
    else do
      let user ← if dec.code ≠ 0xff then call cb {} [0] user else pure user
      return (⟨data.toNat, data.toNat - 1⟩, user)

def decoderWrite (s : Decoder × σ) (buf : List UInt8) : Decoder × σ × ℤ :=
  returns buf.length (buf.foldlM (decodeByte cb f) s)

def decoderClose (dec : Decoder) : Decoder × ℤ :=
  ({}, if dec.codeIndex ≠ 0 then -einval else 0)

def writes (write : κ × σ → List UInt8 → κ × σ × ℤ) (s : κ × σ) :
    List (List UInt8) → (κ × σ) × List ℤ
  | [] => (s, [])
  | buf :: bufs =>
    let (k, user, ret) := write s buf
    let (s, rets) := writes write (k, user) bufs
    (s, ret :: rets)

end

def record (buf : List UInt8) (calls : List (List UInt8)) : List (List UInt8) × ℤ :=
  (calls ++ [buf], 0)

/-- The calls of the callback while a stream is encoded, and what the calls of the codec return. -/
def encode (f : Flags) (bufs : List (List UInt8)) : List (List UInt8) × List ℤ :=
  let (s, rets) := writes (encoderWrite record f) ({}, []) bufs
  let (_, calls, ret) := encoderClose record f s
  (calls, rets ++ [ret])

def decode (f : Flags) (bufs : List (List UInt8)) : List (List UInt8) × List ℤ :=
  let ((dec, calls), rets) := writes (decoderWrite record f) ({}, []) bufs
  (calls, rets ++ [(decoderClose dec).2])

theorem writes_eq {step : κ × σ → UInt8 → Except (κ × σ × ℤ) (κ × σ)} {bufs : List (List UInt8)}
    (h : bufs.flatten.foldlM step s = .ok s') :
    writes (fun s buf => returns buf.length (buf.foldlM step s)) s bufs =
      (s', bufs.map fun buf => (buf.length : ℤ)) := by
  induction bufs generalizing s with
  | nil =>
    cases h
    rfl
  | cons buf bufs ih =>
    rw [flatten_cons, foldlM_append] at h
    cases hb : buf.foldlM step s with
    | error r => simp [hb, bind, Except.bind] at h
    | ok s₁ =>
      rw [hb] at h
      have hret : returns (buf.length : ℤ) (buf.foldlM step s) = (s₁.1, s₁.2, ↑buf.length) := by
        rw [hb]
        rfl
      simp only [writes, hret, map_cons]
      rw [ih h]

theorem Encoder.code_toNat {enc : Encoder} (h : enc.group.length ≤ 254) :
    enc.code.toNat = enc.group.length + 1 := by
  rw [Encoder.code, UInt8.toNat_ofNat', Nat.mod_eq_of_lt (by omega)]

theorem Encoder.code_ne_zero {enc : Encoder} (h : enc.group.length ≤ 254) : enc.code ≠ 0 := by
  intro h0
  have hcode := Encoder.code_toNat h
  simp [h0] at hcode

theorem Encoder.code_eq_full {enc : Encoder} (h : enc.group.length ≤ 254) :
    enc.code = 0xff ↔ enc.group.length = 254 := by
  rw [← UInt8.toNat_inj, Encoder.code_toNat h]
  exact Nat.succ_inj

theorem call_record (reset : κ) : call record reset buf calls = .ok (calls ++ [buf]) := rfl

theorem encoderClose_record (f : Flags) (enc : Encoder) (calls : List (List UInt8)) :
    encoderClose record f (enc, calls) =
      ({}, calls ++ [f.mask enc.fragment] ++ (if f.trailing then [[f.delimiter]] else []), 0) := by
  obtain ⟨-, trailing⟩ := f
  cases trailing with
  | false => exact congrArg ((({} : Encoder), ·, (0 : ℤ))) (append_nil _).symm
  | true => rfl

section Decoding

variable (f : Flags)

theorem mask_mask (x d : UInt8) : x ^^^ d ^^^ d = x := by
  rw [UInt8.xor_assoc, UInt8.xor_self, UInt8.xor_zero]

/-- What a decoder delivers before the bytes of a group, when the group before it had this code. -/
def zero (code : ℕ) : List UInt8 := if code = 0xff then [] else [0]

theorem decode_data {g : List UInt8} (hg : 0 ∉ g) (n : ℕ) (calls : List (List UInt8)) :
    (f.mask g).foldlM (decodeByte record f) (⟨code, g.length + n⟩, calls) =
      .ok (⟨code, n⟩, calls ++ g.map ([·])) := by
  induction g generalizing calls with
  | nil => simp [Flags.mask, pure, Except.pure]
  | cons x g ih =>
    obtain ⟨hx, hg⟩ := not_or.1 (mem_cons.not.1 hg)
    have hstep : decodeByte record f (⟨code, (x :: g).length + n⟩, calls) (x ^^^ f.delimiter) =
        .ok (⟨code, g.length + n⟩, calls ++ [[x]]) := by
      simp [decodeByte, mask_mask, Ne.symm hx, call_record]
    rw [Flags.mask, map_cons, foldlM_cons, hstep]
    exact (ih hg _).trans (by simp)

theorem decode_fragment {enc : Encoder} (hg : 0 ∉ enc.group) (hlen : enc.group.length ≤ 254)
    (calls : List (List UInt8)) :
    (f.mask enc.fragment).foldlM (decodeByte record f) (⟨code, 0⟩, calls) =
      .ok (⟨enc.group.length + 1, 0⟩, calls ++ (zero code ++ enc.group).map ([·])) := by
  have hstep : decodeByte record f (⟨code, 0⟩, calls) (enc.code ^^^ f.delimiter) =
      .ok (⟨enc.group.length + 1, enc.group.length + 0⟩, calls ++ (zero code).map ([·])) := by
    by_cases hc : code = 0xff
    · simp [decodeByte, mask_mask, enc.code_ne_zero hlen, enc.code_toNat hlen, hc, zero]
      rfl
    · simp [decodeByte, mask_mask, enc.code_ne_zero hlen, enc.code_toNat hlen, hc, zero, call_record]
  rw [Flags.mask, Encoder.fragment, map_cons, foldlM_cons, hstep]
  exact (decode_data f hg 0 _).trans (by simp)

end Decoding

/-- What an encoder has written decodes to what it was given, up to the group it is at and the zero
that comes before that. -/
structure Encodes (f : Flags) (xs : List UInt8) (enc : Encoder) (out : List UInt8) : Prop where
  decodes : ∃ code data, out.foldlM (decodeByte record f) ({}, []) =
    .ok (⟨code, 0⟩, data.map ([·])) ∧ xs = data ++ zero code ++ enc.group
  group : 0 ∉ enc.group ∧ enc.group.length ≤ 254
  delimiter : f.delimiter ∉ out
  length : ∃ full, out.length + enc.group.length = xs.length + full ∧
    254 * full + enc.group.length ≤ xs.length

namespace Encodes

theorem init (f : Flags) : Encodes f [] {} [] :=
  ⟨⟨0xff, [], rfl, rfl⟩, by simp, by simp, 0, by simp⟩

theorem decodes_fragment (h : Encodes f xs enc out) :
    (out ++ f.mask enc.fragment).foldlM (decodeByte record f) ({}, []) =
      .ok (⟨enc.group.length + 1, 0⟩, xs.map ([·])) := by
  obtain ⟨code, data, hout, rfl⟩ := h.decodes
  rw [foldlM_append, hout]
  refine (decode_fragment f h.group.1 h.group.2 _).trans ?_
  simp

theorem delimiter_fragment (h : Encodes f xs enc out) :
    f.delimiter ∉ out ++ f.mask enc.fragment := by
  have hfrag : 0 ∉ enc.fragment := by
    simp [Encoder.fragment, h.group.1, (enc.code_ne_zero h.group.2).symm]
  rw [mem_append, Flags.mask, mem_map]
  rintro (hd | ⟨x, hx, heq⟩)
  · exact h.delimiter hd
  · obtain rfl : x = 0 := by rw [← mask_mask x f.delimiter, heq, UInt8.xor_self]
    exact hfrag hx

theorem finish (h : Encodes f xs enc out) :
    Encodes f (xs ++ zero (enc.group.length + 1)) {} (out ++ f.mask enc.fragment) := by
  obtain ⟨n, hl, hle⟩ := h.length
  refine ⟨⟨_, _, h.decodes_fragment, by simp⟩, by simp, h.delimiter_fragment, ?_⟩
  by_cases hfull : enc.group.length = 254
  · refine ⟨n + 1, ?_, ?_⟩ <;> simp [zero, Flags.mask, Encoder.fragment, hfull] at hl hle ⊢ <;> omega
  · refine ⟨n, ?_, ?_⟩ <;> simp [zero, Flags.mask, Encoder.fragment, hfull] <;> omega

theorem push (h : Encodes f xs enc out) (hlen : enc.group.length ≠ 254) (hx : x ≠ 0) :
    Encodes f (xs ++ [x]) ⟨enc.group ++ [x]⟩ out := by
  obtain ⟨code, data, hout, hxs⟩ := h.decodes
  obtain ⟨n, hl, hle⟩ := h.length
  refine ⟨⟨code, data, hout, by simp [hxs]⟩, ⟨by simp [h.group.1, hx.symm], ?_⟩, h.delimiter,
    n, ?_, ?_⟩
  · have := h.group.2
    simp
    omega
  · simp
    omega
  · simp
    omega

theorem byte (h : Encodes f xs enc calls.flatten) (x : UInt8) : ∃ enc' calls',
    encodeByte record f (enc, calls) x = .ok (enc', calls') ∧
    Encodes f (xs ++ [x]) enc' calls'.flatten := by
  obtain ⟨enc₁, calls₁, heq, h₁, hlen⟩ : ∃ enc₁ calls₁,
      finishFull record f (enc, calls) = .ok (enc₁, calls₁) ∧
      Encodes f xs enc₁ calls₁.flatten ∧ enc₁.group.length ≠ 254 := by
    have hcode := Encoder.code_eq_full h.group.2
    unfold finishFull
    split
    · next hfull => exact ⟨_, _, rfl, by simpa [zero, hcode.1 hfull] using h.finish, by simp⟩
    · next hne => exact ⟨_, _, rfl, h, hcode.not.1 hne⟩
  rw [encodeByte, heq]
  by_cases hx : x = 0
  · subst hx
    exact ⟨_, _, rfl, by simpa [zero, hlen] using h₁.finish⟩
  · exact ⟨_, _, if_neg hx, h₁.push hlen hx⟩

theorem bytes (calls : List (List UInt8)) (h : Encodes f xs enc calls.flatten) (ys : List UInt8) :
    ∃ enc' calls', ys.foldlM (encodeByte record f) (enc, calls) = .ok (enc', calls') ∧
    Encodes f (xs ++ ys) enc' calls'.flatten := by
  induction ys generalizing xs enc calls with
  | nil => exact ⟨enc, calls, rfl, by simpa using h⟩
  | cons y ys ih =>
    obtain ⟨enc₁, calls₁, heq, h₁⟩ := h.byte y
    obtain ⟨enc', calls', heq', h'⟩ := ih _ h₁
    exact ⟨enc', calls', by rw [foldlM_cons, heq]; exact heq', by simpa using h'⟩

end Encodes

/-- However a stream is cut, it is encoded without an error and within the bound, the delimiter
is in it at most at its end, and however the result is cut, it is decoded to the bytes of the
stream, and one frame if there is a delimiter. -/
theorem cobs_round_trip (f : Flags) (bufs : List (List UInt8)) :
    (encode f bufs).2 = bufs.map (fun buf => (buf.length : ℤ)) ++ [0] ∧
    (∃ body, (encode f bufs).1.flatten = body ++ (if f.trailing then [f.delimiter] else []) ∧
      f.delimiter ∉ body) ∧
    (encode f bufs).1.flatten.length ≤ maxEncodedLen f bufs.flatten.length ∧
    ∀ parts : List (List UInt8), parts.flatten = (encode f bufs).1.flatten →
      decode f parts = (bufs.flatten.map ([·]) ++ (if f.trailing then [[]] else []),
        parts.map (fun buf => (buf.length : ℤ)) ++ [0]) := by
  obtain ⟨enc, calls, heq, h⟩ := Encodes.bytes [] (.init f) bufs.flatten
  have henc : encode f bufs = (calls ++ [f.mask enc.fragment] ++
      (if f.trailing then [[f.delimiter]] else []),
      bufs.map (fun buf => (buf.length : ℤ)) ++ [0]) := by
    have hw : writes (encoderWrite record f) ({}, []) bufs = _ := writes_eq heq
    rw [encode, hw]
    simp [encoderClose_record]
  obtain ⟨n, hl, hle⟩ := h.length
  have hflat : (encode f bufs).1.flatten = calls.flatten ++ f.mask enc.fragment ++
      (if f.trailing then [f.delimiter] else []) := by
    rw [henc]
    split <;> simp
  refine ⟨by rw [henc], ⟨_, hflat, h.delimiter_fragment⟩, ?_, fun parts hparts => ?_⟩
  · rw [hflat, maxEncodedLen]
    split <;> simp [Flags.mask, Encoder.fragment] at hl hle ⊢ <;> omega
  have hout : parts.flatten.foldlM (decodeByte record f) ({}, []) = .ok
      (⟨if f.trailing then 0xff else enc.group.length + 1, 0⟩,
        bufs.flatten.map ([·]) ++ (if f.trailing then [[]] else [])) := by
    rw [hparts, hflat, foldlM_append, h.decodes_fragment]
    cases ht : f.trailing with
    | false => simp
    | true =>
      simp [decodeByte, ht]
      rfl
  have hw : writes (decoderWrite record f) ({}, []) parts = _ := writes_eq hout
  rw [decode, hw]
  rfl

theorem cobs_round_trip_zero :
    (encode ⟨1, true⟩ [[2, 0], [3]]).1.flatten = [3, 3, 3, 2, 1] ∧
    decode ⟨1, true⟩ [[3], [3, 3, 2, 1]] = ([[2], [0], [3], []], [1, 4, 0]) := by
  have hout : (encode ⟨1, true⟩ [[2, 0], [3]]).1.flatten = [3, 3, 3, 2, 1] := by decide +kernel
  obtain ⟨-, -, -, hdec⟩ := cobs_round_trip ⟨1, true⟩ [[2, 0], [3]]
  exact ⟨hout, hdec _ hout.symm⟩

end ZephyrRtos.Cobs
