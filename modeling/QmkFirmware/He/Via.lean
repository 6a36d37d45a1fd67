import QmkFirmware.He.Config

/-!
`he_via.c`: the custom value commands, the autosave task and the mode keycodes.
-/

set_option autoImplicit false

namespace QmkFirmware.He

def heViaArmAutosave (now : UInt16) (s : HeState) : HeState :=
  { s with via := { s.via with autosavePending := true, autosaveTimer := now } }

def heViaCommitThresholds (s : HeState) : HeState :=
  let s := if s.via.stagedDirty then
      let s := heSetRelease s.via.stagedRelease (heSetActuation s.via.stagedActuation s)
      { s with via := { s.via with stagedDirty := false } }
    else s
  heSaveToEeprom s

/-- `timer_elapsed` is a 16-bit difference. -/
def heViaTask (now : UInt16) (s : HeState) : HeState :=
  if s.via.autosavePending ∧ heViaAutosaveMs ≤ now-s.via.autosaveTimer then
    heViaCommitThresholds { s with via := { s.via with autosavePending := false } }
  else s

/-- A custom value packet: `[ command_id, channel_id, value_id, value_data ]`. -/
structure ViaData where
  commandId : UInt8
  channelId : UInt8
  valueId : UInt8
  value : UInt8
  deriving DecidableEq, Repr

def heViaSetValue (now : UInt16) (valueId value : UInt8) (s : HeState) : HeState :=
  match valueId with
  | 1 => heViaArmAutosave now
      { s with via := { s.via with stagedActuation := value, stagedDirty := true } }
  | 2 => heViaArmAutosave now
      { s with via := { s.via with stagedRelease := value, stagedDirty := true } }
  | 3 => heViaCommitThresholds s
  | 6 => heSetMode value s
  | 7 => heViaArmAutosave now (heSetDeadzone value s)
  | 8 => heViaArmAutosave now (heSetEngage value s)
  | 9 => heViaArmAutosave now (heSetReleaseDist value s)
  | 12 => heViaCommitThresholds
      { s with via := { s.via with
          stagedActuation := value
          stagedRelease := if 0 < value then value-1 else 0
          stagedDirty := true } }
  | 4 => heStartCalibration s
  | 5 => heEndCalibration s
  | _ => s

def heViaGetValue (valueId : UInt8) (s : HeState) : UInt8 :=
  match valueId with
  | 1 => (s.config 0).actuation
  | 2 => (s.config 0).release
  | 6 => s.mode.code
  | 7 => s.tuning.deadzone
  | 8 => s.tuning.engage
  | 9 => s.tuning.releaseDist
  | _ => 0

def idCustomChannel : UInt8 := 0
def idCustomSetValue : UInt8 := 0x07
def idCustomGetValue : UInt8 := 0x08
def idCustomSave : UInt8 := 0x09
def idUnhandled : UInt8 := 0xFF

def viaCustomValueCommandKb (now : UInt16) (data : ViaData) (s : HeState) : ViaData × HeState :=
  if data.channelId ≠ idCustomChannel then ({ data with commandId := idUnhandled }, s) else
  if data.commandId = idCustomSetValue then
    (data, heViaSetValue now data.valueId data.value s)
  else if data.commandId = idCustomGetValue then
    ({ data with value := heViaGetValue data.valueId s }, s)
  else if data.commandId = idCustomSave then (data, heViaCommitThresholds s)
  else ({ data with commandId := idUnhandled }, s)

def qkKb0 : UInt16 := 0x7E00

def heHandleKeycode (keycode : UInt16) (pressed : Bool) (s : HeState) : Bool × HeState :=
  if keycode = qkKb0 then (false, if pressed then heSetMode 0 s else s)
  else if keycode = qkKb0+1 then (false, if pressed then heSetMode 1 s else s)
  else if keycode = qkKb0+2 then (false, if pressed then heSetMode 2 s else s)
  else (true, s)

end QmkFirmware.He
