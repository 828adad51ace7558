set_option autoImplicit false

namespace UtilityCss.Utf8

structure Fault where
  valid : Nat
  length : Option Nat
  deriving DecidableEq, Repr

def Fault.message (fault : Fault) : String :=
  match fault.length with
  | some length => "invalid utf-8 sequence of " ++ toString length ++ " bytes from index " ++
      toString fault.valid
  | none => "incomplete utf-8 byte sequence from index " ++ toString fault.valid

def isContinuation (b : UInt8) : Bool := 0x80 ≤ b && b ≤ 0xBF

def secondRange (lead : UInt8) : UInt8 × UInt8 :=
  if lead = 0xE0 then (0xA0, 0xBF)
  else if lead = 0xED then (0x80, 0x9F)
  else if lead = 0xF0 then (0x90, 0xBF)
  else if lead = 0xF4 then (0x80, 0x8F)
  else (0x80, 0xBF)

def sequenceLength (lead : UInt8) : Nat :=
  if lead < 0x80 then 1
  else if lead < 0xC2 then 0
  else if lead < 0xE0 then 2
  else if lead < 0xF0 then 3
  else if lead < 0xF5 then 4
  else 0

inductive Start where
  | character (c : Char) (length : Nat)
  | illFormed (length : Nat)
  | incomplete
  deriving DecidableEq

def payload (b : UInt8) : Nat := b.toNat % 64

def start (lead : UInt8) (rest : List UInt8) : Start :=
  let length := sequenceLength lead
  let (low, high) := secondRange lead
  if length = 0 then .illFormed 1
  else if length = 1 then .character (Char.ofNat lead.toNat) 1
  else match rest with
    | [] => .incomplete
    | b :: rest =>
      if b < low || high < b then .illFormed 1
      else if length = 2 then .character (Char.ofNat (lead.toNat % 32 * 64 + payload b)) 2
      else match rest with
        | [] => .incomplete
        | c :: rest =>
          if !isContinuation c then .illFormed 2
          else if length = 3 then
            .character (Char.ofNat (lead.toNat % 16 * 4096 + payload b * 64 + payload c)) 3
          else match rest with
            | [] => .incomplete
            | d :: _ =>
              if !isContinuation d then .illFormed 3
              else .character (Char.ofNat
                (lead.toNat % 8 * 262144 + payload b * 4096 + payload c * 64 + payload d)) 4

def decodeFrom (valid : Nat) (bytes : List UInt8) : Except Fault (List Char) :=
  match bytes with
  | [] => .ok []
  | lead :: rest =>
    match start lead rest with
    | .character c length => (decodeFrom (valid + length) (rest.drop (length - 1))).map (c :: ·)
    | .illFormed length => .error ⟨valid, some length⟩
    | .incomplete => .error ⟨valid, none⟩
termination_by bytes.length
decreasing_by simp only [List.length_drop, List.length_cons]; omega

def decode (bytes : ByteArray) : Except Fault String :=
  (decodeFrom 0 bytes.data.toList).map String.ofList

def decodeLossy (bytes : List UInt8) : List Char :=
  match bytes with
  | [] => []
  | lead :: rest =>
    match start lead rest with
    | .character c length => c :: decodeLossy (rest.drop (length - 1))
    | .illFormed length => '\uFFFD' :: decodeLossy (rest.drop (length - 1))
    | .incomplete => ['\uFFFD']
termination_by bytes.length
decreasing_by all_goals simp only [List.length_drop, List.length_cons]; omega

end UtilityCss.Utf8
