import Lachesis.Kvdb.Store

/-!
`utils/fmtfilter`: a filter reads a request by one template and prints what it read by another.
-/

namespace Lachesis.Fmtfilter

open Kvdb

inductive Op where
  | d
  | s
  deriving DecidableEq

inductive Value where
  | int (n : Int)
  | str (text : Bytes)
  deriving DecidableEq

/-- What the filters use of Go: the loop over a string, `unicode` and `fmt`. -/
structure Go where
  /-- The runes of a string, each with its position. -/
  runes : Bytes → List (Nat × Nat)
  runes_nil : runes [] = []
  isLetter : Nat → Bool
  /-- `Sscanf` into operands of the given kinds, nothing where it returns an error. -/
  sscanf : (req template : Bytes) → List Op → Option (List Value)
  sprintf : (template : Bytes) → List Value → Bytes

inductive Failure where
  /-- "unexpected op in position %d for template '%s'" -/
  | unexpectedOp (position : Nat) (template : Bytes)
  /-- "non-closed %% in template '%s'" -/
  | nonClosed (template : Bytes)
  /-- "template ops for scanf don't match scanf ops: '%s' != '%s'" -/
  | opsDontMatch (ops printfOps : List Op)
  /-- "unknown combination of scanf operations" -/
  | unknownCombination
  deriving DecidableEq

section Model

variable (go : Go)

def parseOps (template : Bytes) : (readOp : Bool) → (ops : List Op) → List (Nat × Nat) →
    Except Failure (List Op)
  | true, _, [] => .error (.nonClosed template)
  | false, ops, [] => .ok ops
  | true, ops, (i, ch) :: rest =>
    if ch = 100 then parseOps template false (ops ++ [.d]) rest
    else if ch = 115 then parseOps template false (ops ++ [.s]) rest
    else if ch = 37 then parseOps template false ops rest
    -- a width or a flag: the operation is still to come
    else if !go.isLetter ch then parseOps template true ops rest
    else .error (.unexpectedOp i template)
  | false, ops, (_, ch) :: rest => parseOps template (decide (ch = 37)) ops rest

def parseScanfOps (template : Bytes) : Except Failure (List Op) :=
  parseOps go template false [] (go.runes template)

/-- The six combinations of one or two operations differ in the types of the operands only. -/
def compileFilter (scanfTemplate printfTemplate : Bytes) :
    Except Failure (Bytes → Option Bytes) :=
  match parseScanfOps go scanfTemplate with
  | .error failure => .error failure
  | .ok ops =>
    match parseScanfOps go printfTemplate with
    | .error failure => .error failure
    | .ok printfOps =>
      if !printfOps.isPrefixOf ops then .error (.opsDontMatch ops printfOps)
      else
        match ops with
        | [] => .ok fun req => if req = scanfTemplate then some printfTemplate else none
        | [_] | [_, _] =>
          .ok fun req => (go.sscanf req scanfTemplate ops).map (go.sprintf printfTemplate)
        | _ :: _ :: _ :: _ => .error .unknownCombination

end Model

theorem compileFilter_empty {go : Go} {printfTemplate : Bytes} {fn : Bytes → Option Bytes}
    (compiled : compileFilter go [] printfTemplate = .ok fn) : fn [] = some printfTemplate := by
  have noOps : parseScanfOps go [] = .ok [] := by
    rw [parseScanfOps, go.runes_nil, parseOps]
  rw [compileFilter, noOps] at compiled
  dsimp only at compiled
  split at compiled
  · cases compiled
  · split_ifs at compiled
    cases compiled
    exact if_pos rfl

section Ascii

def isDigit (b : Fin 256) : Bool := 48 ≤ b && b ≤ 57

def Value.text : Value → Bytes
  | .int n => (Nat.toDigits 10 n.toNat).map fun c => Fin.ofNat 256 c.toNat
  | .str text => text

/-- `Sscanf` where the request has no blanks and the operations of the template no widths. -/
def scanText : (template req : Bytes) → Option (List Value)
  -- what is left of the request does not matter
  | [], _ => some []
  | [c], req => if req.head? = some c then some [] else none
  | c :: op :: rest, req =>
    if c ≠ 37 then
      match req with
      | [] => none
      | b :: req => if b = c then scanText (op :: rest) req else none
    else if op = 100 then
      let digits := req.takeWhile isDigit
      if digits = [] then none
      else (scanText rest (req.drop digits.length)).map fun values =>
        .int (digits.foldl (fun n b => 10 * n + (b.val - 48)) 0) :: values
    else if op = 115 then
      if req = [] then none else (scanText rest []).map fun values => .str req :: values
    else
      match req with
      | [] => none
      | b :: req => if b = 37 then scanText rest req else none

def printText : (template : Bytes) → List Value → Bytes
  | [], _ => []
  | [c], _ => [c]
  | c :: op :: rest, values =>
    if c ≠ 37 then c :: printText (op :: rest) values
    else if op = 37 then 37 :: printText rest values
    else
      match values with
      | [] => printText rest []
      | value :: values => value.text ++ printText rest values

/-- Plain text. A number has no sign and no limit of 64 bits, and values beyond the operations of a
template are dropped, where `fmt` says so in the text. -/
def ascii : Go where
  runes text := text.zipIdx.map fun x => (x.2, x.1.val)
  runes_nil := rfl
  isLetter ch := 65 ≤ ch && ch ≤ 90 || 97 ≤ ch && ch ≤ 122
  sscanf req template _ := scanText template req
  sprintf := printText

/-- A request that goes on after the number is taken, and what follows is dropped. -/
example : (compileFilter ascii [101, 37, 100] [120, 37, 100]).toOption.bind
    (fun fn => fn [101, 52, 50, 47, 97]) = some [120, 52, 50] := by decide

end Ascii

end Lachesis.Fmtfilter
