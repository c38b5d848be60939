import OrderLookup.Wire.Literal
import OrderLookup.Wire.Numeral

/-!
Passing over a value that nobody wants to know, however deeply it is nested. The brackets that
are still open are kept in a list, the innermost first.
-/

namespace OrderLookup.Wire

inductive Bracket
  | square
  | curly
deriving DecidableEq

def Bracket.closer : Bracket → UInt8
  | .square => ascii ']'
  | .curly => ascii '}'

def Bracket.endCause : Bracket → Cause
  | .square => .endOfList
  | .curly => .endOfObject

def Bracket.separatorCause : Bracket → Cause
  | .square => .expectedListEnd
  | .curly => .expectedObjectEnd

/-- Where the scan stands: `fresh` says that nothing has been read inside the innermost bracket. -/
structure Nesting where
  fresh : Bool
  brackets : List Bracket

def skipKey : Reader Unit := fun bs =>
  match skipSpace bs with
  | [] => failAt .endOfObject []
  | b :: r =>
    if b = ascii '"' then do
      let (_, r) ← skipText r
      colon r
    else failAt .keyNotText (b :: r)

def enterValue (opened : List Bracket) : Reader Nesting := fun bs =>
  let scalar (p : Except Fault (Unit × Bytes)) : Except Fault (Nesting × Bytes) :=
    p.map fun q => (⟨false, opened⟩, q.2)
  match skipSpace bs with
  | [] => failAt .endOfValue []
  | b :: r =>
    if b = ascii '[' then .ok (⟨true, .square :: opened⟩, r)
    else if b = ascii '{' then .ok (⟨true, .curly :: opened⟩, r)
    else if b = ascii '"' then scalar (skipText r)
    else if b = ascii 'n' then scalar (word ['u', 'l', 'l'] r)
    else if b = ascii 't' then scalar (word ['r', 'u', 'e'] r)
    else if b = ascii 'f' then scalar (word ['a', 'l', 's', 'e'] r)
    else if b = ascii '-' then scalar (skipMagnitude r)
    else if isDigitByte b then scalar (skipMagnitude (b :: r))
    else failAt .expectedValue (b :: r)

def enterMember (top : Bracket) (outer : List Bracket) : Reader Nesting := fun bs =>
  match top with
  | .square => enterValue (.square :: outer) bs
  | .curly => do
    let (_, r) ← skipKey bs
    enterValue (.curly :: outer) r

def skipFrom : Bytes → Nesting → Reader Unit
  | _, ⟨_, []⟩, bs => .ok ((), bs)
  | [], ⟨_, top :: _⟩, _ => failAt top.endCause []
  | _ :: bound, ⟨fresh, top :: outer⟩, bs =>
    match skipSpace bs with
    | [] => failAt top.endCause []
    | b :: r =>
      if b = top.closer then skipFrom bound ⟨false, outer⟩ r
      else if fresh then do
        let (n, r) ← enterMember top outer (b :: r)
        skipFrom bound n r
      else if b = ascii ',' then do
        let (n, r) ← enterMember top outer r
        skipFrom bound n r
      else failAt top.separatorCause (b :: r)

def skipValue : Reader Unit := fun bs => do
  let (n, r) ← enterValue [] bs
  skipFrom bs n r

end OrderLookup.Wire
