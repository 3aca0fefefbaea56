import PresenceNode.Radar.Window
import PresenceNode.Sen5x.Window

/-!
# The record of a window

`windowRecord` is what `window_flush` of `main.c` builds out of the two windows
that it takes, before `store_append` numbers it.  Its prints are left out.
-/

namespace PresenceNode.Main

open PresenceNode.Frame Radar Sen5x

/-- `rec.flags`, one assignment of `window_flush` after the other. -/
def windowFlags (w : RadarWindow) (aq : Sen5xWindow) : UInt8 :=
  let flags := if w.alive then 0 else sntlFlagSensorFault
  let flags := if aq.alive then flags else flags ||| sntlFlagAqFault
  let flags := if w.tracker then flags else flags ||| sntlFlagNoTracker
  flags ||| sntlFlagRtcUnset

def windowRecord (w : RadarWindow) (aq : Sen5xWindow) : SntlRecord where
  seq := 0
  ts := 0
  headcount := w.headcount
  occS := w.occS
  dwellS := w.dwellS
  flags := windowFlags w aq
  batt := 100
  pm25 := aq.pm25
  pm10 := aq.pm10
  temp := aq.temp
  rh := aq.rh
  voc := aq.voc

/-- The flag for the air sensor is clear exactly in the record of a window that is alive. -/
theorem windowFlags_aqFault (w : RadarWindow) (aq : Sen5xWindow) :
    windowFlags w aq &&& sntlFlagAqFault = 0 ↔ aq.alive = true := by
  unfold windowFlags
  cases w.alive <;> cases w.tracker <;> cases aq.alive <;> decide

/-- The flag for the tracker is clear exactly in the record of a window that saw a target list. -/
theorem windowFlags_noTracker (w : RadarWindow) (aq : Sen5xWindow) :
    windowFlags w aq &&& sntlFlagNoTracker = 0 ↔ w.tracker = true := by
  unfold windowFlags
  cases w.alive <;> cases w.tracker <;> cases aq.alive <;> decide

theorem windowFlags_rtcUnset (w : RadarWindow) (aq : Sen5xWindow) :
    windowFlags w aq &&& sntlFlagRtcUnset ≠ 0 := by
  unfold windowFlags
  cases w.alive <;> cases w.tracker <;> cases aq.alive <;> decide

end PresenceNode.Main
