import Mathlib.Logic.Function.Iterate
import PresenceNode.Errno
import PresenceNode.Library.Machine

/-!
# The air quality window of `sen5x.c`

An exchange is one call of `read_words` as the bus answers it: each of its two
transfers may fail, and a read may leave any bytes in `raw`, so that every
checksum may fail as well.  What is printed is left out.
-/

namespace PresenceNode.Sen5x

open Library

def sen5xUnknownU : UInt16 := 0xFFFF

def sen5xUnknownS : Int16 := 0x7FFF

def statusFatal : UInt32 := ((1 : UInt32) <<< 4) ||| ((1 : UInt32) <<< 5)

/-! ## The bus -/

def crc8Bit (crc : UInt8) : UInt8 :=
  if crc &&& 0x80 ≠ 0 then (crc <<< 1) ^^^ 0x31 else crc <<< 1

def crc8Byte (crc byte : UInt8) : UInt8 := crc8Bit^[8] (crc ^^^ byte)

def crc8 (high low : UInt8) : UInt8 := crc8Byte (crc8Byte 0xFF high) low

example : crc8 0xBE 0xEF = 0x92 := by decide +kernel

/-- What `i2c_write_dt` and `i2c_read_dt` return, and the bytes in `raw` after them. -/
structure Exchange where
  written : Int
  fetched : Int
  raw : Nat → UInt8

def Exchange.fits (x : Exchange) (i : Nat) : Prop :=
  crc8 (x.raw (i * 3)) (x.raw (i * 3 + 1)) = x.raw (i * 3 + 2)

instance (x : Exchange) (i : Nat) : Decidable (x.fits i) :=
  inferInstanceAs (Decidable (_ = _))

def Exchange.word (x : Exchange) (i : Nat) : UInt16 :=
  ((x.raw (i * 3)).toUInt16 <<< 8) ||| (x.raw (i * 3 + 1)).toUInt16

/-- `read_words`: what it leaves in `out`, or the error that it returns. -/
def readWords (x : Exchange) (words : Nat) : Except Int (Vector UInt16 words) :=
  if x.written ≠ 0 then .error x.written
  else if x.fetched ≠ 0 then .error x.fetched
  else if ∀ i < words, x.fits i then .ok (Vector.ofFn fun i => x.word i)
  else .error eio

/-! ## The window -/

structure Sen5xWindow where
  pm25 : UInt16
  pm10 : UInt16
  temp : Int16
  rh : Int16
  voc : Int16
  alive : Bool

/-- The statics `running` and `acc`. -/
structure Sen5xStatics where
  running : Bool
  acc : Sen5xWindow

def accReset : Sen5xWindow where
  pm25 := sen5xUnknownU
  pm10 := sen5xUnknownU
  temp := sen5xUnknownS
  rh := sen5xUnknownS
  voc := sen5xUnknownS
  alive := false

/-- `sen5x_start`, with what the bus answers to the start command. -/
def sen5xStart (s : Sen5xStatics) (ready : Bool) (started : Int) : Sen5xStatics × Int :=
  let s := { s with acc := accReset }
  if ready = false then (s, enodev)
  else if started ≠ 0 then (s, started)
  else ({ s with running := true }, 0)

def peak (held sample : UInt16) : UInt16 :=
  if sample ≠ 0xFFFF ∧ (held = sen5xUnknownU ∨ sample > held) then sample else held

/-- The other values are those of the last sample. -/
def latest (held : Int16) (sample : UInt16) (value : Int16) : Int16 :=
  if sample ≠ 0xFFFF then value else held

def foldSample (acc : Sen5xWindow) (w : Vector UInt16 8) : Sen5xWindow where
  pm25 := peak acc.pm25 w[1]
  pm10 := peak acc.pm10 w[3]
  rh := latest acc.rh w[4] w[4].toInt16
  temp := latest acc.temp w[5] (w[5].toInt16 / 2)
  voc := latest acc.voc w[6] w[6].toInt16
  alive := true

def sen5xPoll (s : Sen5xStatics) (x : Exchange) : Sen5xStatics :=
  if s.running = false then s
  else match readWords x 8 with
    | .ok w => { s with acc := foldSample s.acc w }
    | .error _ => s

/-- The device status register as `sen5x_window_take` puts it together. -/
def statusOf (st : Vector UInt16 2) : UInt32 := (st[0].toUInt32 <<< 16) ||| st[1].toUInt32

/-- The check of the status register, made only for a window with a good sample. -/
def checkStatus (acc : Sen5xWindow) (x : Exchange) : Sen5xWindow :=
  if acc.alive then
    match readWords x 2 with
    | .ok st => if statusOf st &&& statusFatal ≠ 0 then { acc with alive := false } else acc
    | .error _ => acc
  else acc

def sen5xWindowTake (s : Sen5xStatics) (x : Exchange) : Sen5xStatics × Sen5xWindow :=
  ({ s with acc := accReset }, checkStatus s.acc x)

inductive Sen5xEvent where
  | poll (x : Exchange)
  | take (x : Exchange)

/-- The main loop polls and takes, and the bus answers as it likes. -/
def sen5x : Machine Sen5xStatics Sen5xEvent (Option Sen5xWindow) where
  step s event :=
    match event with
    | .poll x => some (sen5xPoll s x, none)
    | .take x => some ((sen5xWindowTake s x).1, some (sen5xWindowTake s x).2)

end PresenceNode.Sen5x
