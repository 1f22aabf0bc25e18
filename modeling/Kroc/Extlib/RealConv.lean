import Kroc.Extlib.Int64Div
import Kroc.Extlib.Int32
import Kroc.Lib.FloatPattern

/-!
# Extlib/RealConv — conversions between integers and reals

`I32ToR32`, `I64ToR32`, `I64ToR64`, `R32ToI32`, `R32ToI64`, `R64ToI32`, `R64ToI64` and `R64ToR32` of
`extconv.c`, and what the words of a real stand for.
-/

namespace Kroc

namespace Extlib

/-- `Mode`: `Truncate` or `Nearest`. -/
abbrev Mode := RoundMode

/-! ## Constants -/

def bitsPerWord32 : Bit32 := 32

def realShift : Bit32 := 8

def realExp : Bit32 := 0xFF

def realXcess : Bit32 := 0x7F

def realRBit : Bit32 := 0x80

def realInf : Bit32 := 0x7F800000

/-- `REAL32MININT32` -/
def real32MinInt32 : Bit32 := 0xCF000000

/-- `REAL32MININT64` -/
def real32MinInt64 : Bit32 := 0xDF000000

def dRealShift : Bit32 := 11

def dRealExpSh : Bit32 := 20

def dRealExp : Bit32 := 0x7FF

def dRealXcess : Bit32 := 0x3FF

def dRealRBit : Bit32 := 0x400

/-- `REAL64MININT32Hi` -/
def real64MinInt32Hi : Bit32 := 0xC1E00000

/-- `REAL64MININT64Hi` -/
def real64MinInt64Hi : Bit32 := 0xC2E00000

/-- `Real64to32NaNfrac` -/
def real64to32NaNfrac : Bit32 := 0x02000000

/-! ## The routines

A routine that can set `Error` gives nothing then, unless its result is there anyway. -/

/-- Whether a fraction is increased, by the bits that were cut off: `rBit` masks the highest of them
and `xcess` the others. -/
def increases (mode : Mode) (bits rBit xcess more frac : Bit32) : Bool :=
  if mode = .truncate ∨ bits &&& rBit = 0 then false
  else if ((bits &&& xcess) ||| more) ||| (frac &&& 1) = 0 then false
  else true

/-- `I32ToR32` -/
def i32ToR32 (mode : Mode) (n : Bit32) : Bit32 :=
  if n = 0 then 0
  else
    let negative := decide (n &&& signBit32 ≠ 0)
    let xsign := if negative then signBit32 else 0
    let xint := if negative then (n ^^^ -1) + 1 else n
    let norm := normalise xint 0
    let places := norm.1
    let xint := norm.2.1
    let xexp := (realXcess - 1) + (bitsPerWord32 - places)
    let xfrac := (shiftright xexp (xint <<< 1) (realShift + 1)).2
    let xfrac :=
      if places.toInt > realShift.toInt then xfrac
      else
        let xint := xint &&& realExp
        if increases mode xint realRBit realXcess 0 xfrac then xfrac + 1 else xfrac
    xsign ||| xfrac

/-- `I64ToR32` -/
def i64ToR32 (mode : Mode) (a : Words) : Bit32 :=
  let negative := decide (a.1 &&& signBit32 ≠ 0)
  let b := if negative then diff (0, 0) a else a
  let ans := if negative then signBit32 else 0
  let norm := normalise b.1 b.2
  let places := norm.1
  let b := norm.2
  if places = 2 * bitsPerWord32 then 0
  else
    let xexp := ((2 * bitsPerWord32 - 1) - places) + realXcess
    let places := b.1 &&& realExp
    let xfrac := (shiftright xexp (b.1 <<< 1) (realShift + 1)).2
    let xfrac := if increases mode places realRBit realXcess b.2 xfrac then xfrac + 1 else xfrac
    ans ||| xfrac

/-- `I64ToR64` -/
def i64ToR64 (mode : Mode) (n : Words) : Words :=
  if n.1 ||| n.2 = 0 then (0, 0)
  else
    let negative := decide (n.1 &&& signBit32 ≠ 0)
    let xsign := if negative then signBit32 else 0
    let xint := if negative then diff (0, 0) n else n
    let norm := normalise xint.1 xint.2
    let places := norm.1
    let xexp := (dRealXcess - 1) + (2 * bitsPerWord32 - places)
    let xint := shiftleft norm.2.1 norm.2.2 1
    let xfrac : Words := ((shiftright xexp xint.1 (dRealShift + 1)).2,
      (shiftright xint.1 xint.2 (dRealShift + 1)).2)
    let xfrac :=
      if places.toInt > (bitsPerWord32 + dRealShift).toInt then xfrac
      else
        let bits := xint.2 &&& dRealExp
        if increases mode bits dRealRBit dRealXcess 0 xfrac.2 then
          let lo := longsum xfrac.2 1 0
          ((longsum xfrac.1 0 lo.1).2, lo.2)
        else xfrac
    (xsign ||| xfrac.1, xfrac.2)

/-- `R32ToI32` -/
def r32ToI32 (mode : Mode) (x : Bit32) : Option Bit32 :=
  let s := shiftleft 0 (x &&& ~~~signBit32) (realShift + 1)
  let xexp := s.1
  let xfrac := s.2
  if xexp = realExp then none
  else if xexp.toInt < (realXcess - 1).toInt then some 0
  else if xexp.toInt < realXcess.toInt then
    if mode = .truncate ∨ xfrac = 0 then some 0
    else if x &&& signBit32 = 0 then some 1
    else some (-1)
  else if x = real32MinInt32 then some signBit32
  else
    let xexp := xexp - realXcess
    if xexp.toInt > (bitsPerWord32 - 2).toInt then none
    else
      let s := shiftleft 1 xfrac xexp
      let guard := s.1
      let xfrac := s.2
      let up := increases mode xfrac signBit32 (~~~signBit32) 0 guard
      let guard := if up then guard + 1 else guard
      if up ∧ guard &&& signBit32 ≠ 0 then none
      else if x &&& signBit32 = 0 then some (guard &&& ~~~signBit32)
      else some (-(guard &&& ~~~signBit32))

/-- `R32ToI64` -/
def r32ToI64 (mode : Mode) (a : Bit32) : Option Words :=
  if a = real32MinInt64 then some (signBit32, 0)
  else
    let s := shiftleft 0 (a <<< 1) realShift
    let xexp := s.1
    if xexp < realXcess - 1 then some (0, 0)
    else if xexp > (2 * bitsPerWord32 - 2) + realXcess then none
    else
      let xfrac := (shiftright 1 s.2 1).2
      let b : Words :=
        if xexp < realXcess + bitsPerWord32 then
          let t := shiftleft 0 xfrac ((1 + xexp) - realXcess)
          if increases mode t.2 signBit32 (~~~signBit32) 0 t.1 then
            let lo := longsum 1 t.1 0
            (longadd 0 0 lo.1, lo.2)
          else (0, t.1)
        else shiftleft 0 xfrac (((1 + xexp) - realXcess) - bitsPerWord32)
      some (if a &&& signBit32 ≠ 0 then diff (0, 0) b else b)

/-- `R64ToI32` -/
def r64ToI32 (mode : Mode) (x : Words) : Option Bit32 :=
  let xexp := (shiftleft 0 (x.1 &&& ~~~signBit32) (dRealShift + 1)).1
  let xfrac := shiftleft x.1 x.2 (dRealShift + 1)
  if xexp = dRealExp then none
  else if x.1 = real64MinInt32Hi ∧ (xfrac.1 = 0 ∨ (mode = .truncate ∧ xfrac.1 = 1)) then
    some signBit32
  else if xexp.toInt < (dRealXcess - 1).toInt then some 0
  else if xexp.toInt < dRealXcess.toInt then
    if mode = .truncate ∨ xfrac.1 ||| xfrac.2 = 0 then some 0
    else if x.1 &&& signBit32 = 0 then some 1
    else some (-1)
  else
    let xexp := xexp - dRealXcess
    if xexp.toInt > (bitsPerWord32 - 2).toInt then none
    else
      let guard := (shiftleft 1 xfrac.1 xexp).1
      let xfrac := shiftleft xfrac.1 xfrac.2 xexp
      let up := increases mode xfrac.1 signBit32 (~~~signBit32) xfrac.2 guard
      let guard := if up then (longsum guard 1 0).2 else guard
      if up ∧ guard.toInt < 0 then none
      else if x.1 &&& signBit32 = 0 then some guard
      else some (-guard)

/-- `R64ToI64` -/
def r64ToI64 (mode : Mode) (x : Words) : Option Words :=
  let xexp := (shiftleft 0 (x.1 &&& ~~~signBit32) (dRealShift + 1)).1
  let xfrac := shiftleft x.1 x.2 (dRealShift + 1)
  if xexp = dRealExp then none
  else if x.1 = real64MinInt64Hi ∧ x.2 = 0 then some (signBit32, 0)
  else if xexp.toInt < (dRealXcess - 1).toInt then some (0, 0)
  else if xexp.toInt < dRealXcess.toInt then
    if mode = .truncate ∨ xfrac.1 ||| xfrac.2 = 0 then some (0, 0)
    else if x.1 &&& signBit32 = 0 then some (0, 1)
    else some (-1, -1)
  else
    let xexp := xexp - dRealXcess
    let low := decide (xexp.toInt < bitsPerWord32.toInt)
    let carry := if low then xfrac.2 else 0
    let guard := if low then 0 else 1
    let xfrac := if low then (1, xfrac.1) else xfrac
    let xexp := if low then xexp else xexp - bitsPerWord32
    if xexp.toInt > (bitsPerWord32 - 2).toInt then none
    else
      let guard := (shiftleft guard xfrac.1 xexp).1
      let xfrac1 := (shiftleft xfrac.1 xfrac.2 xexp).1
      let s := shiftleft xfrac.2 carry xexp
      let n : Words :=
        if increases mode s.1 signBit32 (~~~signBit32) s.2 xfrac1 then
          let lo := longsum xfrac1 1 0
          ((longsum guard 0 lo.1).2 &&& ~~~signBit32, lo.2)
        else (guard &&& ~~~signBit32, xfrac1)
      some (if x.1 &&& signBit32 = 0 then n else diff (0, 0) n)

/-- The exponent, the fraction and the guard bits of the result of `R64ToR32` before it is rounded,
and `Error`. -/
def r64ToR32Parts (x : Words) : Bool × Bit32 × Bit32 × Bit32 :=
  let xfrac := shiftleft x.1 x.2 dRealShift
  let xexp := (x.1 >>> dRealExpSh) &&& dRealExp
  if xexp ≠ dRealExp then
    if xexp ≠ 0 then
      let yfrac := xfrac.1 ||| signBit32
      let guard := xfrac.2
      let yexp := xexp - (dRealXcess - realXcess)
      if yexp.toInt ≥ realExp.toInt then (true, realExp, signBit32, guard)
      else if yexp.toInt > 0 then (false, yexp, yfrac, guard)
      else if yexp.toInt > (1 - bitsPerWord32).toInt then
        let s := shiftright yfrac guard (1 - yexp)
        (false, 0, s.1, guard ||| s.2)
      else (false, yexp, 0, guard ||| yfrac)
    else (false, 0, 0, xfrac.1 ||| xfrac.2)
  else
    let xfrac1 := xfrac.1 &&& ~~~signBit32
    let yfrac := xfrac1 &&& ~~~(realXcess ||| realRBit)
    (true, realExp, if yfrac = 0 ∧ xfrac1 ||| xfrac.2 ≠ 0 then real64to32NaNfrac else yfrac, 0)

/-- `R64ToR32`: `Error` and the result. -/
def r64ToR32 (mode : Mode) (x : Words) : Bool × Bit32 :=
  let parts := r64ToR32Parts x
  let error := parts.1
  let yexp := parts.2.1
  let yfrac := parts.2.2.1
  let guard := parts.2.2.2
  let r :=
    if yexp.toInt < realExp.toInt then
      let places := yfrac &&& realExp
      let yfrac := (shiftright yexp (yfrac <<< 1) (realShift + 1)).2
      if increases mode places realRBit realXcess guard yfrac then
        (error || decide (yfrac + 1 = realInf), yfrac + 1)
      else (error, yfrac)
    else (true, (shiftright yexp (yfrac <<< 1) (realShift + 1)).2)
  (r.1, (x.1 &&& signBit32) ||| r.2)

/-! ## What the words stand for -/

/-- A REAL32, unless it is infinite or no number. -/
def real32 (x : Bit32) : Option ℚ :=
  if x.toNat / 2 ^ 23 % 2 ^ 8 = 255 then none
  else some ((if x.msb then -1 else 1) * patternValue 23 (-149) (x.toNat % 2 ^ 31))

/-- A REAL64, unless it is infinite or no number. -/
def real64 (x : Words) : Option ℚ :=
  if dword x / 2 ^ 52 % 2 ^ 11 = 2047 then none
  else some ((if x.1.msb then -1 else 1) * patternValue 52 (-1074) (dword x % 2 ^ 63))

/-- The REAL32 has the sign, and is what the magnitude rounds to; that of infinity is that of the
number after the largest. -/
def RoundsToReal32 (mode : Mode) (negative : Bool) (magnitude : ℚ) (x : Bit32) : Prop :=
  x.msb = negative ∧
    IsRounded (patternValue 23 (-149)) realInf.toNat mode magnitude (x.toNat % 2 ^ 31)

/-- The REAL64 has the sign, and is what the magnitude rounds to. -/
def RoundsToReal64 (mode : Mode) (negative : Bool) (magnitude : ℚ) (x : Words) : Prop :=
  x.1.msb = negative ∧
    IsRounded (patternValue 52 (-1074)) (2047 * 2 ^ 52) mode magnitude (dword x % 2 ^ 63)

end Extlib

end Kroc
