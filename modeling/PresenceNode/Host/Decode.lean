import Mathlib.Logic.Function.Basic
import PresenceNode.Host.Split

/-!
# The frame decoder of `tlv.py`

A float is the 32-bit word that it is unpacked from; what is computed from
floats (the point cloud, and the speed of a target) is left out.  `none`
stands for an exception, or for a walk that does not end.
-/

namespace PresenceNode.Host

open Library

def targetList : Nat := 308

def enhancedPresence : Nat := 315

structure Header where
  version : Nat
  totalPacketLen : Nat
  platform : Nat
  frameNumber : Nat
  timeCpuCycles : Nat
  numDetectedObj : Nat
  numTLVs : Nat
  subFrameNumber : Nat

def header (frame : List UInt8) : Option Header := do
  let version ← unpackU32 frame 8
  let totalPacketLen ← unpackU32 frame 12
  let platform ← unpackU32 frame 16
  let frameNumber ← unpackU32 frame 20
  let timeCpuCycles ← unpackU32 frame 24
  let numDetectedObj ← unpackU32 frame 28
  let numTLVs ← unpackU32 frame 32
  let subFrameNumber ← unpackU32 frame 36
  some { version, totalPacketLen, platform, frameNumber, timeCpuCycles, numDetectedObj, numTLVs,
         subFrameNumber }

abbrev Entry := Nat × List UInt8

def tlvsLoop (frame : List UInt8) (total : Nat) : Nat → Nat → Option (List Entry)
  | 0, _ => none
  | turns + 1, off =>
      if off + 8 ≤ total then do
        let t ← unpackU32 frame off
        let ln ← unpackU32 frame (off + 4)
        if off + 8 + ln > total then some []
        else do
          let rest ← tlvsLoop frame total turns (off + (8 + ln))
          some ((t, (frame.drop (off + 8)).take ln) :: rest)
      else some []

def tlvs (frame : List UInt8) : Option (List Entry) := do
  let total ← unpackU32 frame 12
  tlvsLoop frame total (total + 1) hdrLen

/-- The dictionary filled in order: a type that comes again replaces what was there. -/
def tlvDict (entries : List Entry) : Nat → Option (List UInt8) :=
  entries.foldl (fun dict entry => Function.update dict entry.1 (some entry.2)) fun _ => none

/-- A track, less its speed. -/
structure Target where
  tid : UInt32
  x : UInt32
  y : UInt32
  z : UInt32
  vx : UInt32
  vy : UInt32
  vz : UInt32
  confidence : UInt32

/-- `TARGET_3D` or `TARGET_2D`: the size of the struct, and the index of its last field. -/
structure Spec where
  size : Nat
  hasZ : Bool
  confidence : Nat

def target3D : Spec := ⟨112, true, 27⟩

def target2D : Spec := ⟨76, false, 18⟩

/-- One turn of the loop of `targets`; `unpack_from` needs the whole struct. -/
def unpackTarget (payload : List UInt8) (spec : Spec) (off : Nat) : Option Target :=
  if off + spec.size ≤ payload.length then do
    let f := fun field => LittleEndian.read32 payload (off + 4 * field)
    let tid ← f 0
    let x ← f 1
    let y ← f 2
    let z ← if spec.hasZ then f 3 else some 0
    let vx ← if spec.hasZ then f 4 else f 3
    let vy ← if spec.hasZ then f 5 else f 4
    let vz ← if spec.hasZ then f 6 else some 0
    let confidence ← f spec.confidence
    some { tid, x, y, z, vx, vy, vz, confidence }
  else none

def stepRange (stop step : Nat) : List Nat :=
  List.range' 0 ((stop + step - 1) / step) step

def targets (payload : List UInt8) : Option (List Target) :=
  if payload.length ≠ 0 ∧ payload.length % target3D.size = 0 then
    (stepRange payload.length target3D.size).mapM (unpackTarget payload target3D)
  else if payload.length ≠ 0 ∧ payload.length % target2D.size = 0 then
    (stepRange payload.length target2D.size).mapM (unpackTarget payload target2D)
  else some []

inductive ZoneState where
  | none
  | minor
  | major
  | unknown
  deriving DecidableEq

def zoneStateOf : Nat → Option ZoneState
  | 0 => some .none
  | 1 => some .minor
  | 2 => some .major
  | 3 => some .unknown
  | _ => Option.none

def zoneAt (bits : List UInt8) (z : Nat) : Option ZoneState := do
  let byte ← if z / 4 < bits.length then bits[z / 4]? else some 0
  zoneStateOf ((byte.toNat >>> (2 * (z % 4))) &&& 0x3)

def presence (payload : List UInt8) : Option (List ZoneState) :=
  if payload.length < 2 then some []
  else do
    let n ← payload[0]?
    (List.range n.toNat).mapM (zoneAt (payload.drop 1))

structure Decoded where
  header : Header
  tlvs : Nat → Option (List UInt8)
  targets : List Target
  zones : List ZoneState

def decode (frame : List UInt8) : Option Decoded := do
  let header ← header frame
  let entries ← tlvs frame
  let dict := tlvDict entries
  let targets ← targets ((dict targetList).getD [])
  let zones ← presence ((dict enhancedPresence).getD [])
  some { header, tlvs := dict, targets, zones }

end PresenceNode.Host
