import QmkFirmware.FlashEfl.Stm32
import QmkFirmware.Via.Session

/-!
The keyboard down to its flash: the calls that the wear-leveling core has made in a session, on the
driver of the embedded flash.
-/

set_option autoImplicit false

namespace QmkFirmware.Via

open Nvm He WearLeveling FlashEfl

variable {cfg : WearLeveling.Config} {L : Layout} {fw : Firmware} {n : Nat}

theorem eepromDevice_running : (eepromDevice .faultFree cfg).Models cfg.logicalSize
    fun s m => Keeps cfg s m ∧ Running cfg s where
  read h ha := by
    obtain ⟨hread,hkeeps⟩ := eepromDevice_models.read h.1 ha
    exact ⟨hread,hkeeps,h.2⟩
  write := by
    rintro s m a bs ⟨hkeeps,hrun⟩ hin
    refine ⟨eepromDevice_models.write hkeeps hin,?_⟩
    by_cases hne : bs = []
    · have hsame : (eepromDevice .faultFree cfg).write a bs s = s := by
        rw [hne]
        exact write_nothing .faultFree a
      rw [hsame]
      exact hrun
    · exact hrun.write (hin hne)

theorem flashSession_running (hL : viaEepromConfigEnd ≤ L.keymapAddr)
    (hsize : L.maxAddr < cfg.logicalSize) {calls : List WearLeveling.Call}
    (hcalls : ∀ c ∈ calls, c.Valid cfg)
    (henabled : Enabled fw (Nvm.memories (plain calls ByteMem.blank) ByteMem.blank))
    (events : List Event) : Running cfg (flashSession L fw n cfg calls events).store :=
  (session_alike eepromDevice_running (fun _ _ h => ⟨h.1.restart,h.2.reinit⟩) hL hsize
    ⟨run_keeps hcalls,run_running (boot_running cfg) hcalls⟩ henabled events).1.store.2

theorem plain_succeeds (cfg : WearLeveling.Config) (log : List BackingCall) (m : ByteMem) :
    ∀ r ∈ (plainBacking cfg).answer.answers m log, r.1 = true := by
  induction log generalizing m with
  | nil => simp [Machine.answers]
  | cons c log ih =>
    refine List.forall_mem_cons.mpr ⟨?_,ih _⟩
    cases c <;> rfl

/-- Over a flash that works as documented, and is free where the driver puts the store, every call
that the core makes in a session succeeds, and its reads give what a memory would give. The store
then has the bytes of the core's, and outside the sectors of the store the flash is as it was. -/
theorem keyboard_on_embedded_flash {σ : Type} {e : Efl σ} (cfg : WearLeveling.Config)
    (efl : FlashEfl.Config) {Ready : σ → Prop} {Free : σ → Nat → Prop} (hw : Works e cfg.writeSize.bytes Ready Free)
    {f : σ} {t : Store σ} (hinit : backingStoreInit e efl cfg (.reset efl f) = some t)
    (hfree : ∀ a < cfg.backingSize, Free f (t.baseOffset+a))
    (hL : viaEepromConfigEnd ≤ L.keymapAddr) (hsize : L.maxAddr < cfg.logicalSize)
    (calls : List WearLeveling.Call) (hcalls : ∀ c ∈ calls, c.Valid cfg)
    (henabled : Enabled fw (Nvm.memories (plain calls ByteMem.blank) ByteMem.blank))
    (events : List Event) :
    let store := (flashSession L fw n cfg calls events).store.flash
    let answers := (eflBacking e efl cfg).answer.answers (powerOn efl f) store.calls
    (∀ r ∈ answers, r.1 = true)
      ∧ answers = (plainBacking cfg).answer.answers ByteMem.blank store.calls
      ∧ ∃ x, (eflBacking e efl cfg).answer.after (powerOn efl f) store.calls
          = some { t with flash := x }
        ∧ (∀ a < cfg.backingSize,
          e.mapped x (t.baseOffset+a) = encodeByte e.erasedIsOne (store.mem a))
        ∧ ∀ a, a < t.baseOffset ∨ e.sectorOffset (t.firstSector+t.sectorCount) ≤ a →
          e.mapped x a = e.mapped f a := by
  have hrun := flashSession_running (n := n) hL hsize hcalls henabled events
  obtain ⟨hanswers,x,hx,hstands⟩ := running_on_flash hw hinit hfree hrun
  refine ⟨?_,hanswers,x,hx,hstands.content,hstands.rest⟩
  rw [hanswers]
  exact plain_succeeds cfg _ _

/-- A mode key and a power cycle. The store is the last sector. -/
theorem keyboard_on_embedded_flash_stm32f411 :
    let store := (flashSession icebreakerLayout emptyFirmware heDebounce icebreakerConfig setUpCalls
      [.keycode qkKb0 true,.powerCycle]).store.flash
    ∃ x : Part, (eflBacking stm32f411 ⟨none,0⟩ icebreakerConfig).answer.after
        (powerOn ⟨none,0⟩ ⟨fun _ => 0xFF,false⟩) store.calls
        = some ⟨393216,7,1,true,x⟩ ∧ ∀ a, a < 393216 → x.mem a = 0xFF := by
  obtain ⟨-,-,x,hx,-,hrest⟩ := keyboard_on_embedded_flash (L := icebreakerLayout)
    (t := ⟨393216,7,1,true,⟨fun _ => 0xFF,false⟩⟩) (f := ⟨fun _ => 0xFF,false⟩) (n := heDebounce)
    icebreakerConfig ⟨none,0⟩ stm32f411_works rfl (fun _ _ => rfl) (le_refl viaEepromConfigEnd)
    (by decide) setUpCalls setUpCalls_valid setUpCalls_enabled [.keycode qkKb0 true,.powerCycle]
  exact ⟨x,hx,fun a ha => hrest a (.inl ha)⟩

end QmkFirmware.Via
