import QmkFirmware.Nvm.Eeconfig

/-!
`raw_hid_receive` of `via.c` with the handlers it calls. The report is at RAM 0, so that
`command_data` is at RAM 1. `rgblight`'s own RAM, `via_command_kb` and the printed texts are left
out; neither `SECURE_ENABLE` nor `VIA_INSECURE` nor `VIA_EEPROM_ALLOW_RESET` is defined.
-/

set_option autoImplicit false

namespace QmkFirmware.Via

open Nvm He

def reportSize : Nat := 32

inductive CommandId where
  | getProtocolVersion | getKeyboardValue | setKeyboardValue
  | dynamicKeymapGetKeycode | dynamicKeymapSetKeycode | dynamicKeymapReset
  | customSetValue | customGetValue | customSave
  | dynamicKeymapMacroGetCount | dynamicKeymapMacroGetBufferSize
  | dynamicKeymapMacroGetBuffer | dynamicKeymapMacroSetBuffer | dynamicKeymapMacroReset
  | dynamicKeymapGetLayerCount | dynamicKeymapGetBuffer | dynamicKeymapSetBuffer
  | dynamicKeymapGetEncoder | dynamicKeymapSetEncoder
  deriving DecidableEq, Repr

def CommandId.code : CommandId → UInt8
  | .getProtocolVersion => 0x01
  | .getKeyboardValue => 0x02
  | .setKeyboardValue => 0x03
  | .dynamicKeymapGetKeycode => 0x04
  | .dynamicKeymapSetKeycode => 0x05
  | .dynamicKeymapReset => 0x06
  | .customSetValue => 0x07
  | .customGetValue => 0x08
  | .customSave => 0x09
  | .dynamicKeymapMacroGetCount => 0x0C
  | .dynamicKeymapMacroGetBufferSize => 0x0D
  | .dynamicKeymapMacroGetBuffer => 0x0E
  | .dynamicKeymapMacroSetBuffer => 0x0F
  | .dynamicKeymapMacroReset => 0x10
  | .dynamicKeymapGetLayerCount => 0x11
  | .dynamicKeymapGetBuffer => 0x12
  | .dynamicKeymapSetBuffer => 0x13
  | .dynamicKeymapGetEncoder => 0x14
  | .dynamicKeymapSetEncoder => 0x15

def CommandId.all : List CommandId :=
  [.getProtocolVersion,.getKeyboardValue,.setKeyboardValue,.dynamicKeymapGetKeycode,
    .dynamicKeymapSetKeycode,.dynamicKeymapReset,.customSetValue,.customGetValue,.customSave,
    .dynamicKeymapMacroGetCount,.dynamicKeymapMacroGetBufferSize,.dynamicKeymapMacroGetBuffer,
    .dynamicKeymapMacroSetBuffer,.dynamicKeymapMacroReset,.dynamicKeymapGetLayerCount,
    .dynamicKeymapGetBuffer,.dynamicKeymapSetBuffer,.dynamicKeymapGetEncoder,
    .dynamicKeymapSetEncoder]

def CommandId.ofCode (v : UInt8) : Option CommandId := CommandId.all.find? fun c => c.code = v

inductive KeyboardValueId where
  | uptime | layoutOptions | switchMatrixState | firmwareVersion | deviceIndication
  | keycodesVersion
  deriving DecidableEq, Repr

def KeyboardValueId.code : KeyboardValueId → UInt8
  | .uptime => 1
  | .layoutOptions => 2
  | .switchMatrixState => 3
  | .firmwareVersion => 4
  | .deviceIndication => 5
  | .keycodesVersion => 6

def KeyboardValueId.ofCode (v : UInt8) : Option KeyboardValueId :=
  [uptime,layoutOptions,switchMatrixState,firmwareVersion,deviceIndication,keycodesVersion].find?
    fun i => i.code = v

def idQmkRgblightChannel : UInt8 := 2

def viaProtocolVersion : UInt16 := 0x000D
def viaFirmwareVersion : UInt32 := 0
def rgblightLimitVal : Nat := 128

/-- What the handlers read besides the report, the EEPROM and the Hall-effect settings. -/
structure Env where
  uptime : UInt32
  now : UInt16
  keycodesVersion : UInt32
  macroCount : UInt8
  rgblightVal : UInt8
  rgblightEnabled : Bool
  rgblightMode : UInt8
  rgblightSpeed : UInt8
  rgblightHue : UInt8
  rgblightSat : UInt8
  rgblightRaw : UInt64

variable (L : Layout) (fw : Firmware) (env : Env) (s : HeState)

def unhandled : Prog Unit := writeByte 0 idUnhandled

/-- A value in `command_data[1]` to `command_data[4]`. -/
def replyDword (value : UInt32) : Prog Unit := do
  writeByte 2 (value >>> 24).toUInt8
  writeByte 3 (value >>> 16).toUInt8
  writeByte 4 (value >>> 8).toUInt8
  writeByte 5 value.toUInt8

def rowBytes : Nat := if 24 < L.cols then 4 else if 16 < L.cols then 3 else if 8 < L.cols then 2 else 1

def switchMatrixState : Prog Unit := do
  let offset ← Nvm.readByte 2
  ByteProg.forFrom 0 (min (28/((L.cols+7)/8)) (L.rows-offset.toNat)) fun row =>
    ByteProg.forFrom 0 (rowBytes L) fun k => writeByte (3+row*rowBytes L+k) 0

def getKeyboardValue : Prog Unit := do
  let valueId ← Nvm.readByte 1
  match KeyboardValueId.ofCode valueId with
  | some .uptime => replyDword env.uptime
  | some .layoutOptions => do
    let value ← nvmViaReadLayoutOptions
    replyDword value
  | some .switchMatrixState => switchMatrixState L
  | some .firmwareVersion => replyDword viaFirmwareVersion
  | some .keycodesVersion => replyDword env.keycodesVersion
  | _ => unhandled

def setKeyboardValue : Prog Unit := do
  let valueId ← Nvm.readByte 1
  match KeyboardValueId.ofCode valueId with
  | some .layoutOptions => do
    let b₃ ← Nvm.readByte 2
    let b₂ ← Nvm.readByte 3
    let b₁ ← Nvm.readByte 4
    let b₀ ← Nvm.readByte 5
    nvmViaUpdateLayoutOptions (joinDword b₀ b₁ b₂ b₃)
  | some .deviceIndication => do
    let _ ← Nvm.readByte 2
    pure ()
  | _ => unhandled

def viaQmkRgblightGetValue : Prog Unit := do
  let valueId ← Nvm.readByte 2
  if valueId = 1 then writeByte 3 (UInt8.ofNat (env.rgblightVal.toNat*255/rgblightLimitVal))
  else if valueId = 2 then writeByte 3 (if env.rgblightEnabled then env.rgblightMode else 0)
  else if valueId = 3 then writeByte 3 env.rgblightSpeed
  else if valueId = 4 then do
    writeByte 3 env.rgblightHue
    writeByte 4 env.rgblightSat

/-- The lights change, the EEPROM does not. -/
def viaQmkRgblightSetValue : Prog Unit := do
  let valueId ← Nvm.readByte 2
  if valueId = 1 ∨ valueId = 2 ∨ valueId = 3 then do
    let _ ← Nvm.readByte 3
    pure ()
  else if valueId = 4 then do
    let _ ← Nvm.readByte 3
    let _ ← Nvm.readByte 4
    pure ()

def viaQmkRgblightCommand : Prog Unit := do
  let commandId ← Nvm.readByte 0
  match CommandId.ofCode commandId with
  | some .customSetValue => viaQmkRgblightSetValue
  | some .customGetValue => viaQmkRgblightGetValue env
  | some .customSave => eeconfigUpdateRgblight env.rgblightRaw
  | _ => unhandled

def heViaCommitThresholds : Prog HeState := do
  Nvm.heSaveToEeprom (He.heViaCommitThresholds s)
  pure (He.heViaCommitThresholds s)

def heViaSetValue (valueId value : UInt8) : Prog HeState :=
  let s' := He.heViaSetValue env.now valueId value s
  if valueId = 3 ∨ valueId = 12 then do
    Nvm.heSaveToEeprom s'
    pure s'
  else if valueId = 6 ∧ (ActuationMode.ofCode value).isSome then do
    Nvm.heSaveSettingsToEeprom s'
    pure s'
  else pure s'

def viaCustomValueCommandKb : Prog HeState := do
  let channelId ← Nvm.readByte 1
  if channelId ≠ idCustomChannel then do
    unhandled
    pure s
  else do
    let commandId ← Nvm.readByte 0
    match CommandId.ofCode commandId with
    | some .customSetValue => do
      let valueId ← Nvm.readByte 2
      let value ← Nvm.readByte 3
      heViaSetValue env s valueId value
    | some .customGetValue => do
      let valueId ← Nvm.readByte 2
      writeByte 3 (heViaGetValue valueId s)
      pure s
    | some .customSave => heViaCommitThresholds s
    | _ => do
      unhandled
      pure s

def viaCustomValueCommand : Prog HeState := do
  let channelId ← Nvm.readByte 1
  if channelId = idQmkRgblightChannel then do
    viaQmkRgblightCommand env
    pure s
  else viaCustomValueCommandKb env s

def replyKeycode (keycode : UInt16) : Prog Unit := do
  writeByte 4 (highByte keycode)
  writeByte 5 (lowByte keycode)

def argKeycode : Prog UInt16 := do
  let high ← Nvm.readByte 4
  let low ← Nvm.readByte 5
  pure (joinBytes high low)

def getKeycode : Prog Unit := do
  let layer ← Nvm.readByte 1
  let row ← Nvm.readByte 2
  let column ← Nvm.readByte 3
  let keycode ← nvmDynamicKeymapReadKeycode L layer.toNat row.toNat column.toNat
  replyKeycode keycode

def setKeycode : Prog Unit := do
  let layer ← Nvm.readByte 1
  let row ← Nvm.readByte 2
  let column ← Nvm.readByte 3
  let keycode ← argKeycode
  nvmDynamicKeymapUpdateKeycode L layer.toNat row.toNat column.toNat keycode

def getEncoder : Prog Unit := do
  let layer ← Nvm.readByte 1
  let encoderId ← Nvm.readByte 2
  let clockwise ← Nvm.readByte 3
  let keycode ← nvmDynamicKeymapReadEncoder L layer.toNat encoderId.toNat (clockwise ≠ 0)
  replyKeycode keycode

def setEncoder : Prog Unit := do
  let layer ← Nvm.readByte 1
  let encoderId ← Nvm.readByte 2
  let clockwise ← Nvm.readByte 3
  let keycode ← argKeycode
  nvmDynamicKeymapUpdateEncoder L layer.toNat encoderId.toNat (clockwise ≠ 0) keycode

/-- The four buffer commands: offset and size from the report, `data` at `command_data[3]`. -/
def bufferCommand (f : Nat → Nat → Nat → Prog Unit) : Prog Unit := do
  let high ← Nvm.readByte 1
  let low ← Nvm.readByte 2
  let size ← Nvm.readByte 3
  f (joinBytes high low).toNat size.toNat 4

def viaCommand : Option CommandId → Prog HeState
  | some .getProtocolVersion => do
    writeByte 1 (highByte viaProtocolVersion)
    writeByte 2 (lowByte viaProtocolVersion)
    pure s
  | some .getKeyboardValue => do
    getKeyboardValue L env
    pure s
  | some .setKeyboardValue => do
    setKeyboardValue
    pure s
  | some .dynamicKeymapGetKeycode => do
    getKeycode L
    pure s
  | some .dynamicKeymapSetKeycode => do
    setKeycode L
    pure s
  | some .dynamicKeymapReset => do
    dynamicKeymapReset L fw
    pure s
  | some .customSetValue | some .customGetValue | some .customSave => viaCustomValueCommand env s
  | some .dynamicKeymapMacroGetCount => do
    writeByte 1 env.macroCount
    pure s
  | some .dynamicKeymapMacroGetBufferSize => do
    writeByte 1 (highByte (UInt16.ofNat L.macroSize))
    writeByte 2 (lowByte (UInt16.ofNat L.macroSize))
    pure s
  | some .dynamicKeymapMacroGetBuffer => do
    bufferCommand (nvmDynamicKeymapMacroReadBuffer L)
    pure s
  | some .dynamicKeymapMacroSetBuffer => do
    bufferCommand (nvmDynamicKeymapMacroUpdateBuffer L)
    pure s
  | some .dynamicKeymapMacroReset => do
    dynamicKeymapMacroReset L
    pure s
  | some .dynamicKeymapGetLayerCount => do
    writeByte 1 (UInt8.ofNat L.layers)
    pure s
  | some .dynamicKeymapGetBuffer => do
    bufferCommand (nvmDynamicKeymapReadBuffer L)
    pure s
  | some .dynamicKeymapSetBuffer => do
    bufferCommand (nvmDynamicKeymapUpdateBuffer L)
    pure s
  | some .dynamicKeymapGetEncoder => do
    getEncoder L
    pure s
  | some .dynamicKeymapSetEncoder => do
    setEncoder L
    pure s
  | none => do
    unhandled
    pure s

def rawHidSend : Prog Unit := ByteProg.forFrom 0 reportSize fun i => do
  let _ ← Nvm.readByte i
  pure ()

/-- It returns the Hall-effect settings in RAM. -/
def rawHidReceive : Prog HeState := do
  let commandId ← Nvm.readByte 0
  let s' ← viaCommand L fw env s (CommandId.ofCode commandId)
  rawHidSend
  pure s'

end QmkFirmware.Via
