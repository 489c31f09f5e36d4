import Mathlib
import QuantumSim.Kernel
import QuantumSim.Proofs.Basis
import QuantumSim.Proofs.Outcome

/-!
Kernels as functions of an index. A kernel updates groups of indices in place and tests its controls
on the lowest index of a group only. Every kernel equals one pass that computes each new amplitude
from the old ones, whatever the control condition.
-/
namespace QuantumSim.Kernel
open BasisIndex

variable {R : Type} [Scalar R]

/-- The amplitude at an index; zero past the end. -/
def valueAt (amps : Array (Amplitude R)) (i : ℕ) : Amplitude R := amps[i]?.getD .zero

/-- The array in which every amplitude is computed from all the old ones. -/
def transform (F : (ℕ → Amplitude R) → ℕ → Amplitude R) (amps : Array (Amplitude R)) :
    Array (Amplitude R) :=
  Array.ofFn fun i : Fin amps.size => F (valueAt amps) i

@[simp] theorem size_transform (F : (ℕ → Amplitude R) → ℕ → Amplitude R)
    (amps : Array (Amplitude R)) : (transform F amps).size = amps.size := by
  simp [transform]

theorem valueAt_transform (F : (ℕ → Amplitude R) → ℕ → Amplitude R) {amps : Array (Amplitude R)}
    {i : ℕ} (h : i < amps.size) : valueAt (transform F amps) i = F (valueAt amps) i := by
  simp [valueAt, transform, h]

theorem elementAt_eq {amps : Array (Amplitude R)} {i : ℕ} (h : i < amps.size) :
    elementAt amps i = .ok (valueAt amps i) := by
  simp [elementAt, valueAt, h]

theorem ext_valueAt {a b : Array (Amplitude R)} (hsize : a.size = b.size)
    (h : ∀ i < a.size, valueAt a i = valueAt b i) : a = b := by
  apply Array.ext hsize
  intro i ha hb
  simpa [valueAt, ha, hb] using h i ha

theorem transform_congr {F G : (ℕ → Amplitude R) → ℕ → Amplitude R} {amps : Array (Amplitude R)}
    (h : ∀ i < amps.size, F (valueAt amps) i = G (valueAt amps) i) :
    transform F amps = transform G amps := by
  apply ext_valueAt (by simp)
  intro i hi
  rw [size_transform] at hi
  rw [valueAt_transform F hi, valueAt_transform G hi, h i hi]

theorem transform_eq_self {F : (ℕ → Amplitude R) → ℕ → Amplitude R} {amps : Array (Amplitude R)}
    (h : ∀ i < amps.size, F (valueAt amps) i = valueAt amps i) : transform F amps = amps := by
  apply ext_valueAt (size_transform F amps)
  intro i hi
  rw [size_transform] at hi
  rw [valueAt_transform F hi, h i hi]

/-- A loop over groups of indices, each updated from its own members alone, is one pass. -/
theorem foldlM_groups {κ : Type} [DecidableEq κ] (owner : ℕ → κ)
    (new : (ℕ → Amplitude R) → ℕ → Amplitude R)
    {step : Array (Amplitude R) → κ → Checked (Array (Amplitude R))} {size : ℕ} {ks : List κ}
    (hlocal : ∀ f g i, i < size → (∀ j < size, owner j = owner i → f j = g j) → new f i = new g i)
    (hks : ks.Nodup)
    (hstep : ∀ k ∈ ks, ∀ amps, amps.size = size →
      step amps k = .ok (transform (fun f i => if owner i = k then new f i else f i) amps))
    {amps : Array (Amplitude R)} (hamps : amps.size = size) :
    ks.foldlM step amps =
      .ok (transform (fun f i => if owner i ∈ ks then new f i else f i) amps) := by
  induction ks generalizing amps with
  | nil =>
    rw [transform_eq_self fun i _ => by simp]
    rfl
  | cons k ks ih =>
    obtain ⟨hfirst, hrest⟩ := List.nodup_cons.1 hks
    rw [List.foldlM_cons, hstep k (by simp) amps hamps, ok_bind,
      ih hrest (fun l hl => hstep l (List.mem_cons_of_mem _ hl)) (by simpa using hamps)]
    congr 1
    apply ext_valueAt (by simp)
    intro i hi
    rw [size_transform, size_transform] at hi
    rw [valueAt_transform _ (by simpa using hi), valueAt_transform _ hi, valueAt_transform _ hi]
    by_cases hmem : owner i ∈ ks
    · have hne : owner i ≠ k := fun h => hfirst (h ▸ hmem)
      rw [if_pos hmem, if_pos (List.mem_cons_of_mem _ hmem)]
      apply hlocal _ _ i (hamps ▸ hi)
      intro j hj hji
      rw [valueAt_transform _ (hamps ▸ hj), if_neg (hji ▸ hne)]
    · simp [hmem]

section Pairs

/-- A dense operator on one target, at an index that it changes. -/
def singleRow (m : GateMatrix R 2) (t : ℕ) (f : ℕ → Amplitude R) (i : ℕ) : Amplitude R :=
  if i.testBit t then
    (m.get 1).get 0 * f (withBit i t false) + (m.get 1).get 1 * f (withBit i t true)
  else (m.get 0).get 0 * f (withBit i t false) + (m.get 0).get 1 * f (withBit i t true)

/-- One pass over all pairs. The controls are tested on the first member of a pair. -/
def singlePass (m : GateMatrix R 2) (t : ℕ) (ctrl : ControlMask) (f : ℕ → Amplitude R) (i : ℕ) :
    Amplitude R :=
  if ctrl.fires (withBit i t false) then singleRow m t f i else f i

/-- What a pair becomes depends on the pair alone. -/
theorem singlePass_local (m : GateMatrix R 2) {n t : ℕ} (ht : t < n) (ctrl : ControlMask)
    {f g : ℕ → Amplitude R} {i : ℕ} (hi : i < 2 ^ n)
    (hfg : ∀ j < 2 ^ n, withBit j t false = withBit i t false → f j = g j) :
    singlePass m t ctrl f i = singlePass m t ctrl g i := by
  have hval (b : Bool) : f (withBit i t b) = g (withBit i t b) :=
    hfg _ (withBit_lt b hi ht) (by simp)
  have hself : f i = g i := hfg i hi rfl
  simp only [singlePass, singleRow, hval, hself]

theorem valueAt_setIfInBounds {amps : Array (Amplitude R)} {i : ℕ} (hi : i < amps.size)
    (x : Amplitude R) (p : ℕ) :
    valueAt (amps.setIfInBounds i x) p = if p = i then x else valueAt amps p := by
  by_cases h : p = i
  · subst h
    simp [valueAt, hi]
  · simp [valueAt, h, Ne.symm h]

theorem updatePair_eq (m : GateMatrix R 2) {i j : ℕ} {amps : Array (Amplitude R)}
    (hi : i < amps.size) (hj : j < amps.size) :
    updatePair m i j amps = .ok (transform (fun f p =>
      if p = j then m[1][0] * f i + m[1][1] * f j
      else if p = i then m[0][0] * f i + m[0][1] * f j else f p) amps) := by
  unfold updatePair
  rw [elementAt_eq hi, elementAt_eq hj]
  simp only [ok_bind]
  refine congrArg Except.ok (ext_valueAt (by simp) ?_)
  intro p hp
  have hp : p < amps.size := by simpa using hp
  rw [valueAt_transform _ hp, valueAt_setIfInBounds (by simpa using hj), valueAt_setIfInBounds hi]

/-- A loop over the chunks of a register, each of which updates the groups whose key lies in it,
updates every group. The keys of chunk `c` start at `2 ^ (h + 1) * c`. -/
theorem overChunks_eq {n h : ℕ} (hn : h < n) (owner : ℕ → ℕ)
    (new : (ℕ → Amplitude R) → ℕ → Amplitude R)
    {body : ℕ → Array (Amplitude R) → Checked (Array (Amplitude R))}
    (howner : ∀ i, owner i / 2 ^ (h + 1) = i / 2 ^ (h + 1))
    (hlocal : ∀ f g i, i < 2 ^ n → (∀ j < 2 ^ n, owner j = owner i → f j = g j) → new f i = new g i)
    (hbody : ∀ c < 2 ^ (n - (h + 1)), ∀ amps, amps.size = 2 ^ n → body (c * (2 * 2 ^ h)) amps =
      .ok (transform (fun f i => if i / 2 ^ (h + 1) = c then new f i else f i) amps))
    {amps : Array (Amplitude R)} (hamps : amps.size = 2 ^ n) :
    overChunks (2 * 2 ^ h) body amps = .ok (transform new amps) := by
  have hlen : 2 * 2 ^ h = 2 ^ (h + 1) := by rw [pow_succ, Nat.mul_comm]
  have hpos : 0 < 2 ^ (h + 1) := by positivity
  have hsize : 2 ^ n = 2 ^ (n - (h + 1)) * 2 ^ (h + 1) := by
    rw [← pow_add]
    congr 1
    omega
  have hcount : (amps.size + 2 * 2 ^ h - 1) / (2 * 2 ^ h) = 2 ^ (n - (h + 1)) := by
    rw [hamps, hlen, hsize, chunks_of_mul hpos]
  rw [overChunks, hcount, foldlM_groups (· / 2 ^ (h + 1)) new _ List.nodup_range
    (fun c hc amps hs => hbody c (List.mem_range.1 hc) amps hs) hamps]
  · refine congrArg Except.ok (transform_congr fun i hi => if_pos ?_)
    rw [List.mem_range, Nat.div_lt_iff_lt_mul hpos, ← hsize]
    exact hamps ▸ hi
  · intro f g i hi hfg
    refine hlocal f g i hi fun j hj hji => hfg j hj ?_
    show j / 2 ^ (h + 1) = i / 2 ^ (h + 1)
    rw [← howner j, ← howner i, hji]

/-- The index of a pair, with the target bit clear, is what its members have in common. -/
theorem eq_pair_iff {t b : ℕ} (hb : b.testBit t = false) (c : Bool) (p : ℕ) :
    p = withBit b t c ↔ withBit p t false = b ∧ p.testBit t = c := by
  constructor
  · rintro rfl
    simp [withBit_self hb]
  · rintro ⟨rfl, rfl⟩
    rw [withBit_withBit, withBit_self rfl]

/-- One pair, reached from its first member. -/
theorem pairStep_eq (m : GateMatrix R 2) {n t b : ℕ} (ht : t < n) (ctrl : ControlMask)
    (hb : b < 2 ^ n) (hbt : b.testBit t = false) {amps : Array (Amplitude R)}
    (hamps : amps.size = 2 ^ n) :
    (if ctrl.fires b then updatePair m b (b + 2 ^ t) amps else .ok amps) = .ok (transform
      (fun f i => if withBit i t false = b then singlePass m t ctrl f i else f i) amps) := by
  split
  next hfire =>
    rw [← withBit_true hbt, updatePair_eq m (hamps ▸ hb) (hamps ▸ withBit_lt _ hb ht)]
    refine congrArg Except.ok (transform_congr fun p _ => ?_)
    have htop := eq_pair_iff hbt true p
    have hbot := eq_pair_iff hbt false p
    rw [withBit_self hbt] at hbot
    by_cases hp : withBit p t false = b
    · cases hpt : p.testBit t <;>
        simp [htop, hbot, hp, hpt, hfire, singlePass, singleRow, Vector.get_eq_getElem,
          ← withBit_withBit p t false true]
    · simp [htop, hbot, hp]
  next hfire =>
    refine congrArg Except.ok (transform_eq_self fun p _ => ?_).symm
    by_cases h : withBit p t false = b
    · simp [h, hfire, singlePass]
    · simp [h]

theorem pairChunk_eq (m : GateMatrix R 2) {n t : ℕ} (ht : t < n) (ctrl : ControlMask) {c : ℕ}
    (hc : c < 2 ^ (n - (t + 1))) {amps : Array (Amplitude R)} (hamps : amps.size = 2 ^ n) :
    pairChunk m (2 ^ t) ctrl (c * (2 * 2 ^ t)) amps = .ok (transform
      (fun f i => if i / 2 ^ (t + 1) = c then singlePass m t ctrl f i else f i) amps) := by
  have hloop : pairChunk m (2 ^ t) ctrl (c * (2 * 2 ^ t)) amps = (chunkKeys t c).foldlM
      (fun amps b => if ctrl.fires b then updatePair m b (b + 2 ^ t) amps else .ok amps) amps := by
    have hlen : c * (2 * 2 ^ t) = 2 ^ (t + 1) * c := by rw [pow_succ]; ring
    unfold pairChunk chunkKeys
    rw [List.foldlM_map, hlen]
  have hstep (b : ℕ) (hb : b ∈ chunkKeys t c) (amps : Array (Amplitude R))
      (hs : amps.size = 2 ^ n) :=
    pairStep_eq m ht ctrl (lt_of_mem_chunkKeys ht hc hb) (mem_chunkKeys.1 hb).2 hs
  rw [hloop, foldlM_groups (withBit · t false) _ _ (nodup_chunkKeys t c) hstep hamps]
  · have hmem (i : ℕ) : withBit i t false ∈ chunkKeys t c ↔ i / 2 ^ (t + 1) = c := by
      simp [mem_chunkKeys, withBit_div (Nat.lt_succ_self t)]
    exact congrArg Except.ok (transform_congr fun i _ => by simp only [hmem])
  · exact fun f g i hi hfg => singlePass_local m ht ctrl hi hfg

/-- The kernel for one target: each amplitude comes from the two that differ in the target bit. -/
theorem applySingle_eq (m : GateMatrix R 2) {n t : ℕ} (ht : t < n) (hn : n < 64)
    (ctrl : ControlMask) {amps : Array (Amplitude R)} (hamps : amps.size = 2 ^ n) :
    applySingle m t ctrl amps = .ok (transform (singlePass m t ctrl) amps) := by
  unfold applySingle
  rw [bitMask_eq (ht.trans hn), ok_bind]
  exact overChunks_eq ht (withBit · t false) (singlePass m t ctrl)
    (fun i => withBit_div (Nat.lt_succ_self t) i _)
    (fun f g i hi hfg => singlePass_local m ht ctrl hi hfg)
    (fun c hc amps hs => pairChunk_eq m ht ctrl hc hs) hamps

end Pairs

section Quadruples

/-- A dense operator on two targets, at an index that it changes. -/
def doubleRow (m : GateMatrix R 4) (t0 t1 : ℕ) (f : ℕ → Amplitude R) (i : ℕ) : Amplitude R :=
  let row := match i.testBit t0, i.testBit t1 with
    | false, false => m.get 0
    | true, false => m.get 1
    | false, true => m.get 2
    | true, true => m.get 3
  rowTimes row (f (withBit (withBit i t0 false) t1 false))
    (f (withBit (withBit i t0 true) t1 false)) (f (withBit (withBit i t0 false) t1 true))
    (f (withBit (withBit i t0 true) t1 true))

/-- The first member of an index's quadruple, with both target bits clear. -/
def quadBase (t0 t1 i : ℕ) : ℕ := withBit (withBit i t0 false) t1 false

theorem quadBase_withBit {t0 t1 : ℕ} (hne : t0 ≠ t1) (i : ℕ) (b0 b1 : Bool) :
    quadBase t0 t1 (withBit (withBit i t0 b0) t1 b1) = quadBase t0 t1 i := by
  apply Nat.eq_of_testBit_eq
  intro p
  by_cases h0 : p = t0 <;> by_cases h1 : p = t1 <;> simp [quadBase, h0, h1, hne]

/-- One pass over all quadruples. The controls are tested on the first member. -/
def doublePass (m : GateMatrix R 4) (t0 t1 : ℕ) (ctrl : ControlMask) (f : ℕ → Amplitude R) (i : ℕ) :
    Amplitude R :=
  if ctrl.fires (quadBase t0 t1 i) then doubleRow m t0 t1 f i else f i

/-- What a quadruple becomes depends on the quadruple alone. -/
theorem doublePass_local (m : GateMatrix R 4) {n t0 t1 : ℕ} (h0 : t0 < n) (h1 : t1 < n)
    (hne : t0 ≠ t1) (ctrl : ControlMask) {f g : ℕ → Amplitude R} {i : ℕ} (hi : i < 2 ^ n)
    (hfg : ∀ j < 2 ^ n, quadBase t0 t1 j = quadBase t0 t1 i → f j = g j) :
    doublePass m t0 t1 ctrl f i = doublePass m t0 t1 ctrl g i := by
  have hval (b0 b1 : Bool) :
      f (withBit (withBit i t0 b0) t1 b1) = g (withBit (withBit i t0 b0) t1 b1) :=
    hfg _ (withBit_lt b1 (withBit_lt b0 hi h0) h1) (quadBase_withBit hne i b0 b1)
  have hself : f i = g i := hfg i hi rfl
  simp only [doublePass, doubleRow, hval, hself]

theorem updateQuad_eq (m : GateMatrix R 4) {i j k l : ℕ} {amps : Array (Amplitude R)}
    (hi : i < amps.size) (hj : j < amps.size) (hk : k < amps.size) (hl : l < amps.size) :
    updateQuad m i j k l amps = .ok (transform (fun f p =>
      if p = l then rowTimes m[3] (f i) (f j) (f k) (f l)
      else if p = k then rowTimes m[2] (f i) (f j) (f k) (f l)
      else if p = j then rowTimes m[1] (f i) (f j) (f k) (f l)
      else if p = i then rowTimes m[0] (f i) (f j) (f k) (f l)
      else f p) amps) := by
  unfold updateQuad
  rw [elementAt_eq hi, elementAt_eq hj, elementAt_eq hk, elementAt_eq hl]
  simp only [ok_bind]
  refine congrArg Except.ok (ext_valueAt (by simp) ?_)
  intro p hp
  have hp : p < amps.size := by simpa using hp
  rw [valueAt_transform _ hp, valueAt_setIfInBounds (by simpa using hl),
    valueAt_setIfInBounds (by simpa using hk), valueAt_setIfInBounds (by simpa using hj),
    valueAt_setIfInBounds hi]

theorem eq_quad_iff {t0 t1 b : ℕ} (hne : t0 ≠ t1) (h0 : b.testBit t0 = false)
    (h1 : b.testBit t1 = false) (c0 c1 : Bool) (p : ℕ) :
    p = withBit (withBit b t0 c0) t1 c1 ↔
      quadBase t0 t1 p = b ∧ p.testBit t0 = c0 ∧ p.testBit t1 = c1 := by
  constructor
  · rintro rfl
    rw [quadBase_withBit hne, quadBase, withBit_self h0, withBit_self h1]
    simp [hne]
  · rintro ⟨rfl, rfl, rfl⟩
    apply Nat.eq_of_testBit_eq
    intro q
    by_cases hq0 : q = t0
    · subst hq0
      simp [hne]
    · by_cases hq1 : q = t1 <;> simp [quadBase, hq0, hq1]

/-- One quadruple, reached from its first member. -/
theorem quadStep_eq (m : GateMatrix R 4) {n t0 t1 b : ℕ} (h0 : t0 < n) (h1 : t1 < n) (hne : t0 ≠ t1)
    (ctrl : ControlMask) (hb : b < 2 ^ n) (hb0 : b.testBit t0 = false) (hb1 : b.testBit t1 = false)
    {amps : Array (Amplitude R)} (hamps : amps.size = 2 ^ n) :
    (if ctrl.fires b then
      updateQuad m b (withBit b t0 true) (withBit b t1 true) (withBit (withBit b t0 true) t1 true)
        amps
    else .ok amps) = .ok (transform
      (fun f i => if quadBase t0 t1 i = b then doublePass m t0 t1 ctrl f i else f i) amps) := by
  have hbase : withBit (withBit b t0 false) t1 false = b := by
    rw [withBit_self hb0, withBit_self hb1]
  have hfirst : withBit (withBit b t0 true) t1 false = withBit b t0 true :=
    withBit_self (by simp [hne.symm, hb1])
  have hsecond : withBit (withBit b t0 false) t1 true = withBit b t1 true := by
    rw [withBit_self hb0]
  split
  next hfire =>
    have hlt (c0 c1 : Bool) : withBit (withBit b t0 c0) t1 c1 < amps.size :=
      hamps ▸ withBit_lt c1 (withBit_lt c0 hb h0) h1
    have hupdate := updateQuad_eq m (hlt false false) (hlt true false) (hlt false true)
      (hlt true true)
    have hiff (p : ℕ) (c0 c1 : Bool) := eq_quad_iff hne hb0 hb1 c0 c1 p
    simp only [hiff] at hupdate
    rw [hbase, hfirst, hsecond] at hupdate
    rw [hupdate]
    refine congrArg Except.ok (transform_congr fun p _ => ?_)
    by_cases hp : quadBase t0 t1 p = b
    · have hmember (c0 c1 : Bool) :
          withBit (withBit p t0 c0) t1 c1 = withBit (withBit b t0 c0) t1 c1 := by
        rw [hiff, quadBase_withBit hne]
        simp [hp, hne]
      cases hp0 : p.testBit t0 <;> cases hp1 : p.testBit t1 <;>
        simp [hp, hp0, hp1, hfire, doublePass, doubleRow, Vector.get_eq_getElem, hmember, hbase,
          hfirst, hsecond]
    · simp [hp]
  next hfire =>
    refine congrArg Except.ok (transform_eq_self fun p _ => ?_).symm
    by_cases h : quadBase t0 t1 p = b
    · simp [h, hfire, doublePass]
    · simp [h]

theorem two_pow_max (a b : ℕ) : max (2 ^ a) (2 ^ b) = 2 ^ max a b :=
  ((pow_right_strictMono₀ (by decide : 1 < 2)).monotone.map_max).symm

theorem two_pow_min (a b : ℕ) : min (2 ^ a) (2 ^ b) = 2 ^ min a b :=
  ((pow_right_strictMono₀ (by decide : 1 < 2)).monotone.map_min).symm

/-- The first members of the quadruples in a chunk. -/
def quadKeys (t0 t1 c : ℕ) : List ℕ :=
  (chunkKeys (max t0 t1) c).filter fun b => b &&& 2 ^ min t0 t1 == 0

theorem nodup_quadKeys (t0 t1 c : ℕ) : (quadKeys t0 t1 c).Nodup := (nodup_chunkKeys _ c).filter _

theorem testBit_of_mem_quadKeys {t0 t1 c b : ℕ} (hb : b ∈ quadKeys t0 t1 c) :
    b.testBit t0 = false ∧ b.testBit t1 = false := by
  obtain ⟨hkey, hlow⟩ := List.mem_filter.1 hb
  have hlow := and_two_pow_eq_zero.1 (beq_iff_eq.1 hlow)
  have hhigh := (mem_chunkKeys.1 hkey).2
  rcases le_total t0 t1 with h | h
  · rw [max_eq_right h] at hhigh
    rw [min_eq_left h] at hlow
    exact ⟨hlow, hhigh⟩
  · rw [max_eq_left h] at hhigh
    rw [min_eq_right h] at hlow
    exact ⟨hhigh, hlow⟩

/-- A chunk has the first members of its own indices' quadruples. -/
theorem quadBase_mem_quadKeys {t0 t1 : ℕ} (c i : ℕ) : quadBase t0 t1 i ∈ quadKeys t0 t1 c ↔
      i / 2 ^ (max t0 t1 + 1) = c := by
  have hbit (p : ℕ) (hp : p = t0 ∨ p = t1) : (quadBase t0 t1 i).testBit p = false := by
    rcases hp with rfl | rfl <;> simp [quadBase]
  have hdiv : quadBase t0 t1 i / 2 ^ (max t0 t1 + 1) = i / 2 ^ (max t0 t1 + 1) := by
    unfold quadBase
    rw [withBit_div (by omega), withBit_div (by omega)]
  unfold quadKeys
  rw [List.mem_filter, mem_chunkKeys, beq_iff_eq, and_two_pow_eq_zero, hdiv,
    hbit _ (max_choice t0 t1), hbit _ (min_choice t0 t1)]
  simp

/-- A chunk goes through its quadruples by their first members. -/
theorem quadChunk_eq_foldlM (m : GateMatrix R 4) (t0 t1 : ℕ) (ctrl : ControlMask) (c : ℕ)
    (amps : Array (Amplitude R)) :
    quadChunk m (2 ^ t0) (2 ^ t1) ctrl (c * (2 * 2 ^ max t0 t1)) amps = (quadKeys t0 t1 c).foldlM
      (fun amps b => if ctrl.fires b then
        updateQuad m b (withBit b t0 true) (withBit b t1 true) (withBit (withBit b t0 true) t1 true)
          amps
      else .ok amps) amps := by
  have hlen : c * (2 * 2 ^ max t0 t1) = 2 ^ (max t0 t1 + 1) * c := by rw [pow_succ]; ring
  have hoffset (j : ℕ) (hj : j < 2 ^ max t0 t1) : j < 2 ^ (max t0 t1 + 1) :=
    hj.trans (Nat.pow_lt_pow_right (by decide) (by omega))
  have hfilter : ((List.range (2 ^ max t0 t1)).filter fun j => j &&& 2 ^ min t0 t1 == 0) =
      (List.range (2 ^ max t0 t1)).filter
        ((fun b => b &&& 2 ^ min t0 t1 == 0) ∘ (2 ^ (max t0 t1 + 1) * c + ·)) := by
    apply List.filter_congr
    intro j hj
    have hj := hoffset j (List.mem_range.1 hj)
    rw [Bool.eq_iff_iff, Function.comp_apply, beq_iff_eq, beq_iff_eq, and_two_pow_eq_zero,
      and_two_pow_eq_zero, Nat.testBit_two_pow_mul_add _ hj, if_pos (by omega)]
  simp only [quadChunk, two_pow_max, two_pow_min, hfilter]
  unfold quadKeys chunkKeys
  rw [List.filter_map, List.foldlM_map]
  refine foldlM_congr (fun j hj amps => ?_) amps
  have hj := List.mem_range.1 (List.mem_filter.1 hj).1
  have hor : j ||| 2 ^ t0 < 2 ^ (max t0 t1 + 1) := Nat.or_lt_two_pow (hoffset j hj)
    (Nat.pow_lt_pow_right (by decide) (by omega))
  rw [hlen, add_or_two_pow c hor (by omega), add_or_two_pow c (hoffset j hj) (by omega),
    add_or_two_pow c (hoffset j hj) (by omega)]

theorem quadChunk_eq (m : GateMatrix R 4) {n t0 t1 : ℕ} (h0 : t0 < n) (h1 : t1 < n) (hne : t0 ≠ t1)
    (ctrl : ControlMask) {c : ℕ} (hc : c < 2 ^ (n - (max t0 t1 + 1)))
    {amps : Array (Amplitude R)} (hamps : amps.size = 2 ^ n) :
    quadChunk m (2 ^ t0) (2 ^ t1) ctrl (c * (2 * 2 ^ max t0 t1)) amps = .ok (transform
      (fun f i => if i / 2 ^ (max t0 t1 + 1) = c then doublePass m t0 t1 ctrl f i else f i)
      amps) := by
  have hstep (b : ℕ) (hb : b ∈ quadKeys t0 t1 c) (amps : Array (Amplitude R))
      (hs : amps.size = 2 ^ n) := by
    obtain ⟨hb0, hb1⟩ := testBit_of_mem_quadKeys hb
    have hlt := lt_of_mem_chunkKeys (max_lt h0 h1) hc (List.mem_of_mem_filter hb)
    exact quadStep_eq m h0 h1 hne ctrl hlt hb0 hb1 hs
  rw [quadChunk_eq_foldlM, foldlM_groups (quadBase t0 t1) _ _ (nodup_quadKeys t0 t1 c) hstep hamps]
  · exact congrArg Except.ok (transform_congr fun i _ => by simp only [quadBase_mem_quadKeys])
  · exact fun f g i hi hfg => doublePass_local m h0 h1 hne ctrl hi hfg

/-- The kernel for two targets: each amplitude comes from the four that differ in the target
bits. -/
theorem applyDouble_eq (m : GateMatrix R 4) {n t0 t1 : ℕ} (h0 : t0 < n) (h1 : t1 < n)
    (hne : t0 ≠ t1) (hn : n < 64) (ctrl : ControlMask) {amps : Array (Amplitude R)}
    (hamps : amps.size = 2 ^ n) :
    applyDouble m t0 t1 ctrl amps = .ok (transform (doublePass m t0 t1 ctrl) amps) := by
  unfold applyDouble
  rw [bitMask_eq (h0.trans hn), bitMask_eq (h1.trans hn), ok_bind, ok_bind,
    two_pow_max]
  refine overChunks_eq (max_lt h0 h1) (quadBase t0 t1) (doublePass m t0 t1 ctrl) (fun i => ?_)
    (fun f g i hi hfg => doublePass_local m h0 h1 hne ctrl hi hfg)
    (fun c hc amps hs => quadChunk_eq m h0 h1 hne ctrl hc hs) hamps
  unfold quadBase
  rw [withBit_div (by omega), withBit_div (by omega)]

end Quadruples

section Phases

/-- One pass over all indices. The controls are tested on the index itself. -/
def diagonalPass (zero one : Amplitude R) (t : ℕ) (ctrl : ControlMask) (f : ℕ → Amplitude R)
    (i : ℕ) :
    Amplitude R :=
  if ctrl.fires i then f i * (if i.testBit t then one else zero) else f i

theorem valueAt_modify {amps : Array (Amplitude R)} {k i : ℕ} (hi : i < amps.size)
    (f : Amplitude R → Amplitude R) :
    valueAt (amps.modify k f) i = if i = k then f (valueAt amps i) else valueAt amps i := by
  unfold valueAt
  rw [Array.getElem?_modify, Array.getElem?_eq_getElem hi]
  by_cases h : i = k
  · rw [if_pos h.symm, if_pos h]
    rfl
  · rw [if_neg (Ne.symm h), if_neg h]

theorem modify_eq_setIfInBounds {amps : Array (Amplitude R)} {i : ℕ} (hi : i < amps.size)
    (f : Amplitude R → Amplitude R) :
    amps.modify i f = amps.setIfInBounds i (f (valueAt amps i)) := by
  apply ext_valueAt (by simp)
  intro p hp
  have hp : p < amps.size := by simpa using hp
  rw [valueAt_modify hp, valueAt_setIfInBounds hi]
  split
  next h => rw [h]
  next => rfl

/-- The kernel for a diagonal operator multiplies each amplitude by a factor of its own. -/
theorem applyDiagonal_eq (zero one : Amplitude R) {t : ℕ} (ht : t < 64) (ctrl : ControlMask)
    (amps : Array (Amplitude R)) :
    applyDiagonal zero one t ctrl amps = .ok (transform (diagonalPass zero one t ctrl) amps) := by
  have hstep : ∀ k ∈ List.range amps.size, ∀ a : Array (Amplitude R), a.size = amps.size →
      (.ok (phaseAt zero one (2 ^ t) ctrl a k) : Checked (Array (Amplitude R))) =
        .ok (transform (fun f i => if i = k then diagonalPass zero one t ctrl f i else f i) a) := by
    intro k hk a ha
    have hk : k < a.size := ha ▸ List.mem_range.1 hk
    refine congrArg Except.ok (ext_valueAt (by unfold phaseAt; split <;> simp) fun i hin => ?_)
    have hi : i < a.size := by
      unfold phaseAt at hin
      split at hin <;> simpa using hin
    rw [valueAt_transform _ hi]
    by_cases hik : i = k
    · subst hik
      cases hfire : ctrl.fires i <;> cases hbit : i.testBit t <;>
        simp [phaseAt, hfire, hbit, diagonalPass, and_two_pow_eq_zero, valueAt_modify hi]
    · cases hfire : ctrl.fires k <;> simp [phaseAt, hfire, hik, valueAt_modify hi]
  have hpass := foldlM_groups id (diagonalPass zero one t ctrl)
    (fun f g i hi hfg => by rw [diagonalPass, diagonalPass, hfg i hi rfl]) List.nodup_range hstep
    rfl
  have hfold := List.foldlM_pure (m := Checked) (f := phaseAt zero one (2 ^ t) ctrl)
    (b := amps) (l := List.range amps.size)
  unfold applyDiagonal
  rw [bitMask_eq ht, ok_bind]
  refine hfold.symm.trans (hpass.trans (congrArg Except.ok (transform_congr fun i hi => if_pos ?_)))
  exact List.mem_range.2 hi

end Phases

end QuantumSim.Kernel
