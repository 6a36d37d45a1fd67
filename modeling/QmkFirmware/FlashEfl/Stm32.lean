import QmkFirmware.FlashEfl.Store

/-!
The flash of the keyboard's processor: 512 kB in eight sectors, and programming clears bits.
-/

set_option autoImplicit false

namespace QmkFirmware.FlashEfl

/-- A part, and whether its driver is started. -/
structure Part where
  mem : ByteMem
  started : Bool

def sectorSize (i : Nat) : Nat :=
  [16384,16384,16384,16384,65536,131072,131072,131072].getD i 0

def sectorOffset (i : Nat) : Nat :=
  [0,16384,32768,49152,65536,131072,262144,393216].getD i 524288

def Part.erase (i : Nat) (x : Part) : FlashError × Part :=
  if x.started then
    (.noError,⟨fun a => if sectorOffset i ≤ a ∧ a < sectorOffset (i+1) then 0xFF else x.mem a,true⟩)
  else (.other,x)

def Part.program (a : Nat) (bs : List UInt8) (x : Part) : FlashError × Part :=
  if x.started then
    (.noError,⟨fun b => if a ≤ b ∧ b < a+bs.length then x.mem b &&& bs.getD (b-a) 0 else x.mem b,
      true⟩)
  else (.other,x)

def stm32f411 : Efl Part where
  sectorsCount := 8
  sectorSize := sectorSize
  sectorOffset := sectorOffset
  erasedIsOne := true
  flashSize := 524288
  start x := (true,{ x with started := true })
  stop x := { x with started := false }
  startEraseSector := Part.erase
  waitErase x := (.noError,x)
  program := Part.program
  mapped x := x.mem
  ecc _ _ := false

variable {x : Part} {a : Nat} {bs : List UInt8}

theorem program_erased (hx : x.started = true)
    (hfree : ∀ i < bs.length, x.mem (a+i) = 0xFF) :
    x.program a bs = (.noError,⟨x.mem.write a bs,true⟩) := by
  have hmem : (fun b => if a ≤ b ∧ b < a+bs.length then x.mem b &&& bs.getD (b-a) 0 else x.mem b)
      = x.mem.write a bs := by
    funext b
    by_cases hin : a ≤ b ∧ b < a+bs.length
    · obtain ⟨i,rfl⟩ := Nat.exists_eq_add_of_le hin.1
      have hi : i < bs.length := by omega
      have hone : ∀ b : UInt8, 0xFF &&& b = b := fun b => UInt8.neg_one_and
      rw [if_pos hin, ByteMem.write_at, hfree i hi, Nat.add_sub_cancel_left, hone]
      simp [List.getD,hi]
    · rw [if_neg hin, ByteMem.write_outside (by omega)]
  rw [Part.program, if_pos hx, hmem]

theorem stm32f411_works :
    Works stm32f411 4 (fun x => x.started = true) fun x a => x.mem a = 0xFF where
  next := by decide
  aligned := by decide
  erased h := h
  ecc _ _ := rfl
  start _ := ⟨rfl,rfl,rfl,fun _ => id⟩
  stop _ := ⟨rfl,fun _ => id⟩
  erase := by
    intro x i hx _
    have herase : stm32f411.startEraseSector i x = (.noError,_) := if_pos hx
    rw [herase]
    refine ⟨rfl,rfl,rfl,fun a => ⟨fun hin => if_pos hin,fun hout => ?_⟩⟩
    have hsame : (if sectorOffset i ≤ a ∧ a < sectorOffset (i+1) then 0xFF else x.mem a) = x.mem a :=
      if_neg hout
    exact ⟨hsame,hsame.trans⟩
  program := by
    intro x a bs hx _ hlen _ hfree
    have hprogram : stm32f411.program a bs x = _ :=
      program_erased hx fun i hi => hfree i (hlen ▸ hi)
    rw [hprogram]
    exact ⟨rfl,rfl,rfl,fun b hb hone =>
      (ByteMem.write_outside (by rw [hlen]; exact hb)).trans hone⟩

end QmkFirmware.FlashEfl
