import Mathlib.Data.Nat.Bitwise
import QmkFirmware.Tapping.Core

/-!
The source layer cache of `action_layer.c`. The bits of a layer lie in planes, one bit of every
plane for a key, so that a key is released on the layer it was pressed on.
-/

set_option autoImplicit false

namespace QmkFirmware.Layers

open Tapping (KeyPos)

/-- The size of `layer_state_t`. -/
inductive LayerStateSize where
  | bits8 | bits16 | bits32
  deriving DecidableEq, Repr

def LayerStateSize.width : LayerStateSize → Nat
  | .bits8 => 8
  | .bits16 => 16
  | .bits32 => 32

def LayerStateSize.maxLayerBits : LayerStateSize → Nat
  | .bits8 => 3
  | .bits16 => 4
  | .bits32 => 5

/-- `matrix.h` has no row type for more than 32 columns, and a layer state has a bit for every
layer. -/
structure Config where
  rows : Nat
  cols : Nat
  size : LayerStateSize
  maxLayer : Nat
  encoderMap : Bool
  actionForKey : UInt8 → KeyPos → UInt16
  cols_le : cols ≤ 32
  maxLayer_le : maxLayer ≤ size.width

def keylocEncoderCw : UInt8 := 253
def keylocEncoderCcw : UInt8 := 252
def actionTransparent : UInt16 := 1

/-- `cache[storage_idx][bit_number]`. -/
abbrev Cache := Nat → Nat → BitVec 8

structure Caches where
  source : Cache
  encoder : Cache

def storageMask (bit : Nat) : BitVec 8 := BitVec.ofNat 8 (2^bit)

def updatePlane (layer : UInt8) (entry : Nat) (cache : Cache) (bitNumber : Nat) : Cache :=
  let idx := entry/8
  let old := cache idx bitNumber
  let fill : BitVec 8 := if layer.toNat &&& 2^bitNumber ≠ 0 then BitVec.allOnes 8 else 0
  Function.update cache idx (Function.update (cache idx) bitNumber
    (old ^^^ ((fill ^^^ old) &&& storageMask (entry % 8))))

def updateSourceLayersCacheImpl (bits : Nat) (layer : UInt8) (entry : Nat) (cache : Cache) :
    Cache :=
  (List.range bits).foldl (updatePlane layer entry) cache

def readSourceLayersCacheImpl (bits entry : Nat) (cache : Cache) : UInt8 :=
  UInt8.ofNat ((List.range bits).foldl (fun layer bitNumber =>
    layer ||| (if cache (entry/8) bitNumber &&& storageMask (entry % 8) ≠ 0 then 1 else 0)
      <<< bitNumber) 0)

namespace Config

variable (cfg : Config)

def inMatrix (key : KeyPos) : Bool := key.row.toNat < cfg.rows && key.col.toNat < cfg.cols

/-- An encoder's position. The matrix goes first if it is so large. -/
def isEncoder (key : KeyPos) : Bool :=
  !cfg.inMatrix key && cfg.encoderMap
    && (key.row = keylocEncoderCw || key.row = keylocEncoderCcw)

def entryNumber (key : KeyPos) : Nat :=
  ((key.row.toNat*cfg.cols) % 65536+key.col.toNat) % 65536

def updateSourceLayersCache (key : KeyPos) (layer : UInt8) (c : Caches) : Caches :=
  if cfg.inMatrix key then
    { c with source :=
        updateSourceLayersCacheImpl cfg.size.maxLayerBits layer (cfg.entryNumber key) c.source }
  else if cfg.isEncoder key then
    { c with encoder :=
        updateSourceLayersCacheImpl cfg.size.maxLayerBits layer key.col.toNat c.encoder }
  else c

def readSourceLayersCache (key : KeyPos) (c : Caches) : UInt8 :=
  if cfg.inMatrix key then
    readSourceLayersCacheImpl cfg.size.maxLayerBits (cfg.entryNumber key) c.source
  else if cfg.isEncoder key then
    readSourceLayersCacheImpl cfg.size.maxLayerBits key.col.toNat c.encoder
  else 0

end Config

structure State (cfg : Config) where
  caches : Caches
  layerState : BitVec cfg.size.width
  defaultLayerState : BitVec cfg.size.width
  disableActionCache : Bool

variable {cfg : Config}

/-- The layers below `n`, top layer first. -/
def topLayer (layers : BitVec cfg.size.width) (key : KeyPos) : Nat → UInt8
  | 0 => 0
  | n+1 =>
    if layers.getLsbD n && cfg.actionForKey (UInt8.ofNat n) key ≠ actionTransparent then
      UInt8.ofNat n
    else topLayer layers key n

def layerSwitchGetLayer (key : KeyPos) (s : State cfg) : UInt8 :=
  topLayer (s.layerState ||| s.defaultLayerState) key cfg.maxLayer

def layerSwitchGetAction (key : KeyPos) (s : State cfg) : UInt16 :=
  cfg.actionForKey (layerSwitchGetLayer key s) key

def storeOrGetAction (pressed : Bool) (key : KeyPos) (s : State cfg) : UInt16 × State cfg :=
  if s.disableActionCache then (layerSwitchGetAction key s,s)
  else if pressed then
    let layer := layerSwitchGetLayer key s
    (cfg.actionForKey layer key,
      { s with caches := cfg.updateSourceLayersCache key layer s.caches })
  else (cfg.actionForKey (cfg.readSourceLayersCache key s.caches) key,s)

/-- A key event, or a change of the layers. -/
inductive Input (cfg : Config) where
  | key (pressed : Bool) (key : KeyPos)
  | layers (layerState defaultLayerState : BitVec cfg.size.width)

def step (s : State cfg) : Input cfg → State cfg
  | .key pressed key => (storeOrGetAction pressed key s).2
  | .layers l d => { s with layerState := l, defaultLayerState := d }

def exec (s : State cfg) (es : List (Input cfg)) : State cfg := es.foldl step s

theorem storageMask_get (i j : Nat) :
    (storageMask i).getLsbD j = decide (j < 8 ∧ i = j) := by
  rw [storageMask, BitVec.getLsbD_ofNat, Nat.testBit_two_pow]
  by_cases h : j < 8 <;> simp [h]

theorem and_storageMask_ne_zero {x : BitVec 8} {i : Nat} (hi : i < 8) :
    x &&& storageMask i ≠ 0 ↔ x.getLsbD i = true := by
  constructor
  · intro h
    by_contra hbit
    refine h (BitVec.eq_of_getLsbD_eq fun j _ => ?_)
    rw [BitVec.getLsbD_and, storageMask_get]
    by_cases hij : i = j
    · subst hij
      simp [(Bool.not_eq_true _).mp hbit]
    · simp [hij]
  · intro h hzero
    have hbit := congrArg (fun b => BitVec.getLsbD b i) hzero
    simp only [BitVec.getLsbD_and, storageMask_get, h, hi] at hbit
    simp at hbit

theorem and_two_pow_ne_zero (n i : Nat) : n &&& 2^i ≠ 0 ↔ n.testBit i = true := by
  rw [Nat.and_two_pow]
  cases n.testBit i <;> simp

def planeBit (cache : Cache) (entry bitNumber : Nat) : Bool :=
  (cache (entry/8) bitNumber).getLsbD (entry % 8)

theorem planeBit_updatePlane (layer : UInt8) (entry entry' : Nat) (cache : Cache) (b b' : Nat) :
    planeBit (updatePlane layer entry cache b) entry' b'
      = if entry' = entry ∧ b' = b then layer.toNat.testBit b else planeBit cache entry' b' := by
  have hmod := Nat.mod_lt entry' (show 0 < 8 by omega)
  unfold planeBit updatePlane
  by_cases hidx : entry'/8 = entry/8
  · by_cases hb : b' = b
    · subst hb
      rw [hidx, Function.update_self, Function.update_self, BitVec.getLsbD_xor,
        BitVec.getLsbD_and, BitVec.getLsbD_xor, storageMask_get]
      by_cases hbit : entry' % 8 = entry % 8
      · have hsame : entry' = entry := by omega
        subst hsame
        have hfill := and_two_pow_ne_zero layer.toNat b'
        cases hl : layer.toNat.testBit b' with
        | true =>
          rw [if_pos (hfill.mpr hl), BitVec.getLsbD_allOnes]
          cases (cache (entry'/8) b').getLsbD (entry' % 8) <;> simp [hmod]
        | false =>
          rw [if_neg fun h => by simp [hfill.mp h] at hl]
          simp
          omega
      · have hne : entry' ≠ entry := fun h => hbit (by rw [h])
        simp [hne, Ne.symm hbit]
    · rw [hidx, Function.update_self, Function.update_of_ne hb, if_neg (by simp [hb])]
  · have hne : entry' ≠ entry := fun h => hidx (by rw [h])
    rw [Function.update_of_ne hidx, if_neg (by simp [hne])]

theorem planeBit_update (bits : Nat) (layer : UInt8) (entry entry' : Nat) (cache : Cache)
    (b : Nat) : planeBit (updateSourceLayersCacheImpl bits layer entry cache) entry' b
      = if entry' = entry ∧ b < bits then layer.toNat.testBit b
        else planeBit cache entry' b := by
  unfold updateSourceLayersCacheImpl
  induction bits with
  | zero => simp
  | succ n ih =>
    rw [List.range_succ, List.foldl_append, List.foldl_cons, List.foldl_nil,
      planeBit_updatePlane, ih]
    by_cases he : entry' = entry
    · by_cases hn : b = n
      · simp [he, hn]
      · have hlt : b < n+1 ↔ b < n := by omega
        simp [he, hn, hlt]
    · simp [he]

def planeBits (cache : Cache) (entry bits : Nat) : Nat :=
  (List.range bits).foldl (fun layer bitNumber =>
    layer ||| (if cache (entry/8) bitNumber &&& storageMask (entry % 8) ≠ 0 then 1 else 0)
      <<< bitNumber) 0

theorem testBit_planeBits (cache : Cache) (entry bits b : Nat) :
    (planeBits cache entry bits).testBit b = (decide (b < bits) && planeBit cache entry b) := by
  have hmod := Nat.mod_lt entry (show 0 < 8 by omega)
  induction bits with
  | zero => simp [planeBits]
  | succ n ih =>
    have hsucc : planeBits cache entry (n+1) = planeBits cache entry n
        ||| (if cache (entry/8) n &&& storageMask (entry % 8) ≠ 0 then 1 else 0) <<< n := by
      rw [planeBits, List.range_succ, List.foldl_append]
      rfl
    rw [hsucc, Nat.testBit_or, ih, Nat.testBit_shiftLeft]
    have hbit := @and_storageMask_ne_zero (cache (entry/8) n) (entry % 8) hmod
    by_cases hn : b = n
    · subst hn
      unfold planeBit
      cases hx : (cache (entry/8) b).getLsbD (entry % 8) with
      | true =>
        rw [if_pos (hbit.mpr hx)]
        simp
      | false =>
        rw [if_neg fun h => by simp [hbit.mp h] at hx]
        simp
    · have hone : ∀ x : Nat, x = 0 ∨ x = 1 → (decide (b ≥ n) && x.testBit (b-n)) = false := by
        rintro x (rfl | rfl)
        · simp
        · by_cases hge : n ≤ b
          · have hlt : 1 < 2^(b-n) := Nat.one_lt_two_pow (by omega)
            rw [Nat.testBit_eq_false_of_lt hlt, Bool.and_false]
          · simp [hge]
      rw [hone _ (by split <;> simp), Bool.or_false]
      have hlt : b < n+1 ↔ b < n := by omega
      simp [hlt]

theorem read_update {bits : Nat} {layer : UInt8}
    (hlayer : layer.toNat < 2^bits) (entry entry' : Nat) (cache : Cache) :
    readSourceLayersCacheImpl bits entry' (updateSourceLayersCacheImpl bits layer entry cache)
      = if entry' = entry then layer else readSourceLayersCacheImpl bits entry' cache := by
  have hread : ∀ cache, readSourceLayersCacheImpl bits entry' cache
      = UInt8.ofNat (planeBits cache entry' bits) := fun _ => rfl
  rw [hread, hread]
  by_cases he : entry' = entry
  · rw [if_pos he]
    have hsame : planeBits (updateSourceLayersCacheImpl bits layer entry cache) entry' bits
        = layer.toNat := by
      refine Nat.eq_of_testBit_eq fun b => ?_
      rw [testBit_planeBits, planeBit_update]
      by_cases hb : b < bits
      · simp [he, hb]
      · have hzero : layer.toNat.testBit b = false :=
          Nat.testBit_eq_false_of_lt (Nat.lt_of_lt_of_le hlayer
            (Nat.pow_le_pow_right (by omega) (by omega)))
        simp [hb, hzero]
    rw [hsame, UInt8.ofNat_toNat]
  · rw [if_neg he]
    congr 1
    refine Nat.eq_of_testBit_eq fun b => ?_
    rw [testBit_planeBits, testBit_planeBits, planeBit_update]
    simp [he]

theorem LayerStateSize.two_pow_bits (size : LayerStateSize) :
    2^size.maxLayerBits = size.width := by
  cases size <;> rfl

namespace Config

theorem entryNumber_inj {key key' : KeyPos} (h : cfg.inMatrix key = true)
    (h' : cfg.inMatrix key' = true) (he : cfg.entryNumber key = cfg.entryNumber key') :
    key = key' := by
  have hcols := cfg.cols_le
  simp only [inMatrix, Bool.and_eq_true, decide_eq_true_eq] at h h'
  have hlt : ∀ k : KeyPos, k.col.toNat < cfg.cols →
      cfg.entryNumber k = k.row.toNat*cfg.cols+k.col.toNat := by
    intro k hk
    have hrow := k.row.toNat_lt
    have hmul : k.row.toNat*cfg.cols ≤ 255*32 := Nat.mul_le_mul (by omega) hcols
    unfold entryNumber
    omega
  rw [hlt key h.2, hlt key' h'.2] at he
  have hpos : 0 < cfg.cols := by omega
  have hrow : key.row.toNat = key'.row.toNat := by
    have hdiv := congrArg (· / cfg.cols) he
    simpa [Nat.mul_comm _ cfg.cols, Nat.mul_add_div hpos, Nat.div_eq_of_lt h.2,
      Nat.div_eq_of_lt h'.2] using hdiv
  have hcol : key.col.toNat = key'.col.toNat := by
    rw [hrow] at he
    omega
  cases key
  cases key'
  simp only [KeyPos.mk.injEq]
  exact ⟨UInt8.toNat_inj.mp hrow, UInt8.toNat_inj.mp hcol⟩

/-- Keys and encoders with an entry in the caches. -/
def stored (cfg : Config) (key : KeyPos) : Bool := cfg.inMatrix key || cfg.isEncoder key

/-- The two directions of an encoder have one entry. -/
def sameEntry (cfg : Config) (key key' : KeyPos) : Bool :=
  key = key' || cfg.isEncoder key && cfg.isEncoder key' && key.col = key'.col

theorem isEncoder_not_inMatrix {key : KeyPos} (h : cfg.isEncoder key = true) :
    cfg.inMatrix key = false := by
  simp only [isEncoder, Bool.and_eq_true, Bool.not_eq_true'] at h
  exact h.1.1

section Cases

variable {key : KeyPos} (layer : UInt8) (c : Caches)

theorem update_matrix (hm : cfg.inMatrix key = true) :
    cfg.updateSourceLayersCache key layer c = { c with
      source := updateSourceLayersCacheImpl cfg.size.maxLayerBits layer (cfg.entryNumber key)
        c.source } := by
  rw [updateSourceLayersCache, if_pos hm]

theorem update_encoder (he : cfg.isEncoder key = true) :
    cfg.updateSourceLayersCache key layer c = { c with
      encoder := updateSourceLayersCacheImpl cfg.size.maxLayerBits layer key.col.toNat
        c.encoder } := by
  rw [updateSourceLayersCache, if_neg (by simp [isEncoder_not_inMatrix he]), if_pos he]

theorem read_matrix (hm : cfg.inMatrix key = true) : cfg.readSourceLayersCache key c
    = readSourceLayersCacheImpl cfg.size.maxLayerBits (cfg.entryNumber key) c.source := by
  rw [readSourceLayersCache, if_pos hm]

theorem read_encoder (he : cfg.isEncoder key = true) : cfg.readSourceLayersCache key c
    = readSourceLayersCacheImpl cfg.size.maxLayerBits key.col.toNat c.encoder := by
  rw [readSourceLayersCache, if_neg (by simp [isEncoder_not_inMatrix he]), if_pos he]

theorem update_neither (h : cfg.stored key = false) :
    cfg.updateSourceLayersCache key layer c = c := by
  simp only [stored, Bool.or_eq_false_iff] at h
  rw [updateSourceLayersCache, if_neg (by simp [h.1]), if_neg (by simp [h.2])]

end Cases

theorem read_update_key {key key' : KeyPos} {layer : UInt8}
    (hlayer : layer.toNat < 2^cfg.size.maxLayerBits) (h : cfg.stored key = true)
    (h' : cfg.stored key' = true) (c : Caches) :
    cfg.readSourceLayersCache key' (cfg.updateSourceLayersCache key layer c)
      = if cfg.sameEntry key key' then layer else cfg.readSourceLayersCache key' c := by
  simp only [stored, Bool.or_eq_true] at h h'
  have hboth : ∀ {k : KeyPos}, cfg.inMatrix k = true → cfg.isEncoder k = false := fun hm => by
    simp [isEncoder, hm]
  have hne : ∀ {k k' : KeyPos}, cfg.inMatrix k = true → cfg.isEncoder k' = true →
      k ≠ k' := by
    rintro k k' hm he rfl
    simp [hboth hm] at he
  rcases h with hm | he
  · rw [update_matrix layer c hm]
    rcases h' with hm' | he'
    · rw [read_matrix _ hm', read_matrix _ hm', read_update hlayer]
      have hiff : cfg.entryNumber key' = cfg.entryNumber key ↔ cfg.sameEntry key key' = true := by
        simp only [sameEntry, hboth hm, Bool.false_and, Bool.or_false, decide_eq_true_eq]
        exact ⟨fun heq => entryNumber_inj hm hm' heq.symm, fun heq => by rw [heq]⟩
      simp only [hiff]
    · rw [read_encoder _ he', read_encoder _ he', if_neg]
      simp [sameEntry, hne hm he', hboth hm]
  · rw [update_encoder layer c he]
    rcases h' with hm' | he'
    · rw [read_matrix _ hm', read_matrix _ hm', if_neg]
      simp [sameEntry, (hne hm' he).symm, hboth hm']
    · rw [read_encoder _ he', read_encoder _ he', read_update hlayer]
      have hiff : key'.col.toNat = key.col.toNat ↔ cfg.sameEntry key key' = true := by
        simp only [sameEntry, he, he', Bool.true_and, Bool.or_eq_true, decide_eq_true_eq]
        constructor
        · exact fun hc => .inr (UInt8.toNat_inj.mp hc).symm
        · rintro (rfl | hc)
          · rfl
          · rw [hc]
      simp only [hiff]

theorem read_update_matrix {key key' : KeyPos} {layer : UInt8}
    (hlayer : layer.toNat < 2^cfg.size.maxLayerBits) (hm : cfg.inMatrix key = true)
    (hne : key' ≠ key) (c : Caches) :
    cfg.readSourceLayersCache key (cfg.updateSourceLayersCache key' layer c)
      = cfg.readSourceLayersCache key c := by
  cases h' : cfg.stored key' with
  | false => rw [update_neither layer c h']
  | true =>
    rw [read_update_key hlayer h' (by simp [stored, hm]), if_neg]
    simp [sameEntry, hne, isEncoder, hm]

end Config

theorem topLayer_lt (layers : BitVec cfg.size.width) (key : KeyPos) {n : Nat}
    (hn : n ≤ cfg.maxLayer) : topLayer layers key n = 0
      ∨ (topLayer layers key n).toNat < cfg.maxLayer := by
  induction n with
  | zero => exact .inl rfl
  | succ n ih =>
    rw [topLayer]
    split
    · right
      rw [UInt8.toNat_ofNat']
      exact Nat.lt_of_le_of_lt (Nat.mod_le _ _) (by omega)
    · exact ih (by omega)

theorem layerSwitchGetLayer_fits (key : KeyPos) (s : State cfg) :
    (layerSwitchGetLayer key s).toNat < 2^cfg.size.maxLayerBits := by
  rcases topLayer_lt (s.layerState ||| s.defaultLayerState) key (Nat.le_refl _) with h | h
  · rw [layerSwitchGetLayer, h]
    exact Nat.two_pow_pos _
  · rw [cfg.size.two_pow_bits]
    exact Nat.lt_of_lt_of_le h cfg.maxLayer_le

theorem press_action (key : KeyPos) {s : State cfg} (hcache : s.disableActionCache = false) :
    (storeOrGetAction true key s).1 = cfg.actionForKey (layerSwitchGetLayer key s) key := by
  simp [storeOrGetAction, hcache]

theorem release_action (key : KeyPos) {s : State cfg} (hcache : s.disableActionCache = false) :
    (storeOrGetAction false key s).1
      = cfg.actionForKey (cfg.readSourceLayersCache key s.caches) key := by
  simp [storeOrGetAction, hcache]

theorem exec_cache_on (es : List (Input cfg)) {s : State cfg}
    (hcache : s.disableActionCache = false) : (exec s es).disableActionCache = false := by
  induction es generalizing s with
  | nil => exact hcache
  | cons i is ih =>
    refine ih ?_
    cases i with
    | layers l d => exact hcache
    | key pressed key =>
      cases pressed <;> simp [step, storeOrGetAction, hcache]

theorem read_exec {key : KeyPos} (hm : cfg.inMatrix key = true) {es : List (Input cfg)}
    (hes : ∀ pressed, .key pressed key ∉ es) {s : State cfg}
    (hcache : s.disableActionCache = false) :
    cfg.readSourceLayersCache key (exec s es).caches
      = cfg.readSourceLayersCache key s.caches := by
  induction es generalizing s with
  | nil => rfl
  | cons i is ih =>
    have his : ∀ pressed, .key pressed key ∉ is := fun p hp =>
      hes p (List.mem_cons_of_mem _ hp)
    have hstep : (step s i).disableActionCache = false
        ∧ cfg.readSourceLayersCache key (step s i).caches
          = cfg.readSourceLayersCache key s.caches := by
      cases i with
      | layers l d => exact ⟨hcache, rfl⟩
      | key pressed key' =>
        have hne : key' ≠ key := by
          rintro rfl
          exact hes pressed List.mem_cons_self
        cases pressed with
        | false =>
          simp only [step, storeOrGetAction, hcache, Bool.false_eq_true, if_false]
          exact ⟨trivial, trivial⟩
        | true =>
          simp only [step, storeOrGetAction, hcache, Bool.false_eq_true, if_false, if_true]
          exact ⟨trivial, Config.read_update_matrix (layerSwitchGetLayer_fits key' s) hm hne
            s.caches⟩
    exact (ih his hstep.1).trans hstep.2

/-- The cache stores a layer for each key and encoder, and a matrix key is released with the
action it was pressed with, whatever happens to the layers and to the other keys in between. -/
theorem source_layers_cache (cfg : Config) :
    (∀ (c : Caches) (key : KeyPos) (layer : UInt8), cfg.stored key = true →
      layer.toNat < cfg.maxLayer →
      cfg.readSourceLayersCache key (cfg.updateSourceLayersCache key layer c) = layer
      ∧ ∀ key', cfg.stored key' = true →
        cfg.readSourceLayersCache key' (cfg.updateSourceLayersCache key layer c)
          = if cfg.sameEntry key key' then layer else cfg.readSourceLayersCache key' c)
    ∧ ∀ (s : State cfg) (before between : List (Input cfg)) (key : KeyPos),
      s.disableActionCache = false → cfg.inMatrix key = true →
      (∀ pressed, .key pressed key ∉ between) →
      (storeOrGetAction false key (exec s (before ++ .key true key :: between))).1
        = (storeOrGetAction true key (exec s before)).1 := by
  refine ⟨fun c key layer hkey hlayer => ?_, fun s before between key hcache hm hbetween => ?_⟩
  · have hfits : layer.toNat < 2^cfg.size.maxLayerBits := by
      rw [cfg.size.two_pow_bits]
      exact Nat.lt_of_lt_of_le hlayer cfg.maxLayer_le
    refine ⟨?_, fun key' hkey' => Config.read_update_key hfits hkey hkey' c⟩
    rw [Config.read_update_key hfits hkey hkey, if_pos (by simp [Config.sameEntry])]
  · have hon := exec_cache_on before hcache
    have hsplit : exec s (before ++ .key true key :: between)
        = exec (step (exec s before) (.key true key)) between := by
      simp [exec]
    generalize exec s before = s' at hon hsplit
    obtain ⟨hpressed, hlayer⟩ : (step s' (.key true key)).disableActionCache = false
        ∧ cfg.readSourceLayersCache key (step s' (.key true key)).caches
          = layerSwitchGetLayer key s' := by
      have hself := Config.read_update_key (layerSwitchGetLayer_fits key s')
        (show cfg.stored key = true by simp [Config.stored, hm])
        (show cfg.stored key = true by simp [Config.stored, hm]) s'.caches
      rw [if_pos (by simp [Config.sameEntry])] at hself
      simp [step, storeOrGetAction, hon, hself]
    rw [hsplit, release_action key (exec_cache_on between hpressed), press_action key hon,
      read_exec hm hbetween hpressed, hlayer]

end QmkFirmware.Layers
