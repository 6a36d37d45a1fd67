import QmkFirmware.Lib.Along
import QmkFirmware.Lib.ByteMem
import QmkFirmware.Lib.ByteProg
import QmkFirmware.Lib.LogReplay
import QmkFirmware.Lib.Relay
import QmkFirmware.Lib.Ring
import QmkFirmware.Lib.Sweep
import QmkFirmware.WearLeveling.LogEntry
import QmkFirmware.WearLeveling.Core
import QmkFirmware.WearLeveling.Playback
import QmkFirmware.WearLeveling.Append
import QmkFirmware.WearLeveling.Store
import QmkFirmware.WearLeveling.Write
import QmkFirmware.WearLeveling.Durability
import QmkFirmware.WearLeveling.Crash
import QmkFirmware.WearLeveling.Faults
import QmkFirmware.He.Config
import QmkFirmware.He.Via
import QmkFirmware.He.Scan
import QmkFirmware.He.Frame
import QmkFirmware.He.LastInput
import QmkFirmware.He.Extremes
import QmkFirmware.He.Socd
import QmkFirmware.He.Settings
import QmkFirmware.He.Persist
import QmkFirmware.He.PowerCycle
import QmkFirmware.He.Band
import QmkFirmware.He.RapidTrigger
import QmkFirmware.Nvm.DynamicKeymap
import QmkFirmware.Nvm.OneStore
import QmkFirmware.Nvm.Eeconfig
import QmkFirmware.Nvm.Regions
import QmkFirmware.Nvm.FirstBoot
import QmkFirmware.Via.Packet
import QmkFirmware.Via.Bounds
import QmkFirmware.Via.Custom
import QmkFirmware.Debounce.Core
import QmkFirmware.Debounce.Calls
import QmkFirmware.Debounce.Defer
import QmkFirmware.Debounce.Eager
import QmkFirmware.Debounce.Rows
import QmkFirmware.Tapping.Core
import QmkFirmware.Tapping.Outcome
import QmkFirmware.Tapping.Rounds
import QmkFirmware.Tapping.Order
import QmkFirmware.Tapping.Tapped
import QmkFirmware.Tapping.Accounting
import QmkFirmware.Tapping.KeySide
import QmkFirmware.Tapping.Sides
import QmkFirmware.Tapping.TapHold
import QmkFirmware.Combos.Core
import QmkFirmware.Combos.Keys
import QmkFirmware.Combos.Single
import QmkFirmware.Combos.Mid
import QmkFirmware.Combos.Visit
import QmkFirmware.Combos.Apply
import QmkFirmware.Combos.Cycle
import QmkFirmware.Layers.SourceCache
import QmkFirmware.Split.Encoder
import QmkFirmware.Painter.Image
import QmkFirmware.EmulatedFlash.Durable
import QmkFirmware.WearLeveling.Protocol
import QmkFirmware.He.Reports
import QmkFirmware.Autocorrect.RoundTrip
import QmkFirmware.Secure.Unlock
import QmkFirmware.Midi.Notes
import QmkFirmware.He.Staged
import QmkFirmware.Debounce.Asym
import QmkFirmware.Matrix.Events
import QmkFirmware.Audio.Stack
import QmkFirmware.Audio.Melody
import QmkFirmware.Macros.SendString
import QmkFirmware.Macros.DynamicKeymap
import QmkFirmware.Oneshot.Layer
import QmkFirmware.DynamicMacro.Replay
import QmkFirmware.Eeprom.ByteArray
import QmkFirmware.TapDance.LifeCycle
import QmkFirmware.Encoder.Quadrature
import QmkFirmware.KeyLock.Core
import QmkFirmware.SwapHands.Core
import QmkFirmware.WearLeveling.Range
import QmkFirmware.Nvm.Datablock
import QmkFirmware.Painter.Truncated
import QmkFirmware.He.Calibration
import QmkFirmware.WearLeveling.Arbitrary
import QmkFirmware.EmulatedFlash.Faults
import QmkFirmware.EmulatedFlash.Gaps
import QmkFirmware.EmulatedFlash.Truthful
import QmkFirmware.Autocorrect.Word
import QmkFirmware.DeferredExec.Timing
import QmkFirmware.AutoShift.Held
import QmkFirmware.Report.Keys
import QmkFirmware.Unicode.Utf8
import QmkFirmware.Unicode.Typing
import QmkFirmware.Unicode.Ucis
import QmkFirmware.Sequencer.Core
import QmkFirmware.Sequencer.Notes
import QmkFirmware.Music.Recorder
import QmkFirmware.Layers.LayerLock
import QmkFirmware.CapsWord.Core
import QmkFirmware.CapsWord.Shifts
import QmkFirmware.RepeatKey.Core
import QmkFirmware.RepeatKey.Balance
import QmkFirmware.FlashSpi.Core
import QmkFirmware.FlashSpi.Store
import QmkFirmware.KeyOverride.Core
import QmkFirmware.KeyOverride.Stuck
import QmkFirmware.MouseKeys.Kinetic
import QmkFirmware.MouseKeys.Core
import QmkFirmware.MouseKeys.Drift
import QmkFirmware.PointingDevice.AutoMouse
import QmkFirmware.Steno.Core
import QmkFirmware.Steno.Stroke
import QmkFirmware.Wpm.Meter
import QmkFirmware.RgbMatrix.LastHit
import QmkFirmware.Painter.Line
import QmkFirmware.Painter.Ellipse
import QmkFirmware.He.Travel
import QmkFirmware.Joystick.Axis
import QmkFirmware.KeymapJson.RoundTrip
import QmkFirmware.KeymapC.Macros
import QmkFirmware.Via.Settings
import QmkFirmware.Via.OnFlash
import QmkFirmware.Action.AtRest
import QmkFirmware.Keyboard.Task
import QmkFirmware.Split.MatrixSync
import QmkFirmware.Midi.SysexTools
