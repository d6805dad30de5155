import Mathlib.Data.Nat.Find
import ChocoOs.Vfs.Bytes

/-!
# Writes at the top of the address range

`vfs_write` adds the offset and the length modulo `2 ^ 64` and doubles the capacity until it is
large enough, without a test for either overflow. Both matter: a sum that wraps is taken for a
small file, and a doubling that steps over the largest power of two arrives at zero and never
leaves it.
-/

namespace ChocoOs.Vfs
open ProgLib

/-! ## The doubling -/

/-- The capacity that the doubling starts from. -/
def startCap (cap : Nat) : Nat := if cap ≠ 0 then cap else 64

/-- The capacity after `k` doublings. -/
def doubled (cap k : Nat) : Nat := startCap cap * 2 ^ k % addrSpace

/-- `c` is the first capacity in the doubling of `cap` with room for `need` bytes. -/
def FirstRoom (cap need c : Nat) : Prop :=
  ∃ k, c = doubled cap k ∧ need ≤ c ∧ ∀ j < k, doubled cap j < need

/-- From the 64th doubling on nothing is left. -/
theorem doubled_of_le (cap : Nat) {k : Nat} (hk : 64 ≤ k) : doubled cap k = 0 := by
  obtain ⟨j, rfl⟩ := Nat.exists_eq_add_of_le hk
  have hpow : 2 ^ 64 = addrSpace := addrSpace_eq.symm
  rw [doubled, Nat.pow_add, hpow, Nat.mul_left_comm]
  exact Nat.mul_mod_right _ _

theorem growRound_doubled {cap need k : Nat} (h : doubled cap k < need) :
    growRound need (doubled cap k) = some (.next (doubled cap (k + 1))) := by
  rw [growRound, if_pos h, mul64, doubled, doubled, Nat.mod_mul_mod, Nat.pow_succ, Nat.mul_assoc]

theorem growCap_start {cap : Nat} (need : Nat) (hcap : cap < addrSpace) :
    growCap cap need = loop (growRound need) addrSpace (doubled cap 0) := by
  have hlt : startCap cap < addrSpace := by
    unfold startCap
    have := addrSpace_eq
    split <;> omega
  rw [doubled, Nat.pow_zero, Nat.mul_one, Nat.mod_eq_of_lt hlt]
  rfl

/-- The doubling ends at the first capacity with room. -/
theorem growCap_of_firstRoom {cap need c : Nat} (hcap : cap < need) (hneed : need < addrSpace)
    (h : FirstRoom cap need c) : growCap cap need = some c := by
  obtain ⟨k, rfl, hroom, hbefore⟩ := h
  have hk : k < addrSpace := by
    by_contra hle
    have has := addrSpace_eq
    have hzero := doubled_of_le cap (show 64 ≤ k by omega)
    omega
  obtain ⟨fuel, hfuel⟩ := Nat.exists_eq_add_of_lt hk
  rw [growCap_start need (Nat.lt_trans hcap hneed), hfuel, Nat.add_assoc,
    loop_iterate (doubled cap) fun i hi => growRound_doubled (hbefore i hi)]
  apply loop_of_done
  rw [growRound, if_neg (Nat.not_lt.mpr hroom)]

/-- Where no capacity has room, the doubling goes on for ever. -/
theorem growCap_eq_none {cap need : Nat} (hcap : cap < need) (hneed : need < addrSpace)
    (h : ¬ ∃ c, FirstRoom cap need c) : growCap cap need = none := by
  have hsmall : ∀ k, doubled cap k < need := by
    by_contra hroom
    simp only [not_forall, Nat.not_lt] at hroom
    apply h
    exact ⟨_, Nat.find hroom, rfl, Nat.find_spec hroom,
      fun j hj => Nat.lt_of_not_le (Nat.find_min hroom hj)⟩
  rw [growCap_start need (Nat.lt_trans hcap hneed)]
  exact loop_iterate (doubled cap) (fun i _ => growRound_doubled (hsmall i)) 0

/-! ## What a call touches -/

/-- Byte `i` of the data is moved to a larger buffer, zeroed or written by `vfs_write`. -/
def WriteTouches (size off len i : Nat) : Prop :=
  i < size ∨ (size ≤ i ∧ i < off) ∨ (off ≤ i ∧ i < off + len)

/-- Byte `i` of the data is touched by `vfs_truncate`. -/
def TruncateTouches (oldSize size i : Nat) : Prop :=
  oldSize < size ∧ WriteTouches oldSize (size - 1) 1 i

/-- A call on the file at `x` ended; it failed and left everything as it was, or touched only
    bytes of the data below the capacity. -/
def Safe (s : Fs) (x : Nat) (touches : Nat → Prop) (res : Option (Fs × Int)) : Prop :=
  ∃ t r, res = some (t, r) ∧ ((r = -1 ∧ t = s) ∨
    (SameOutside s.mem t.mem (t.node x).data ((t.node x).data + (t.node x).cap) ∧
      ∀ i, touches i → i < (t.node x).cap))

/-- The heap has no block for a file of `cap` bytes that shall hold `need`. -/
def Refused (pick : Pick) (heap : Arena) (cap need : Nat) : Prop :=
  ∃ c, FirstRoom cap need c ∧ (heap.alloc pick c).1 = 0

/-- The sum of the offset and the length does not wrap and, if it is larger than the capacity,
    some capacity has room for it; or the heap has no block for the sum as it comes out. -/
def WriteFits (pick : Pick) (heap : Arena) (cap off len : Nat) : Prop :=
  (off + len < addrSpace ∧ (off + len ≤ cap ∨ ∃ c, FirstRoom cap (off + len) c)) ∨
    (cap < add64 off len ∧ Refused pick heap cap (add64 off len))

/-- The new size is not larger than the capacity, or some capacity has room for it. -/
def TruncateFits (cap size : Nat) : Prop :=
  size ≤ cap ∨ ∃ c, FirstRoom cap size c

/-! ## Writes -/

theorem FirstRoom.le {cap need c : Nat} (h : FirstRoom cap need c) : need ≤ c := by
  obtain ⟨k, rfl, hle, -⟩ := h
  exact hle

/-- A buffer with room for more than before is not smaller than before. -/
theorem le_of_growBuffer {pick : Pick} {heap heap' : Arena} {data data' cap cap' need : Nat}
    (hg : growBuffer pick heap data cap need = some (heap', data', cap')) (hle : need ≤ cap') :
    cap ≤ cap' := by
  unfold growBuffer at hg
  split at hg
  · obtain ⟨-, -, rfl⟩ : heap = heap' ∧ data = data' ∧ cap = cap' := by simpa using hg
    exact Nat.le_refl _
  · omega

/-- The old buffer can always be given back, so only the request for the new one can fail. -/
theorem OpenFile.refused_of_growBuffer {pick : Pick} {s : Fs} {file need c : Nat}
    (h : OpenFile s file) (hcap : (s.node file).cap < need)
    (hc : growCap (s.node file).cap need = some c)
    (hg : growBuffer pick s.heap (s.node file).data (s.node file).cap need = none) :
    (s.heap.alloc pick c).1 = 0 := by
  rcases Arena.alloc_cases pick c s.heap with hfail | ⟨nd, hfits, halloc⟩
  · rw [hfail]
  · exfalso
    rw [growBuffer, if_neg (Nat.not_le.mpr hcap), hc, Option.bind_some] at hg
    simp only [halloc, if_neg hfits.1, Option.map_eq_none_iff] at hg
    split at hg
    · next hd =>
      obtain ⟨-, hmem, -⟩ := h.room.resolve_left fun hz => hd hz.1
      have hin : (s.node file).data ∈ ((nd, c) :: s.heap.live).map Prod.fst := by
        apply List.mem_map.mpr
        exact ⟨_, List.mem_cons_of_mem _ hmem, rfl⟩
      rw [Arena.free, if_neg hd, if_pos hin] at hg
      cases hg
    · cases hg

/-- A write whose end does not wrap is safe when the doubling ends. -/
theorem OpenFile.vfsWrite_safe (pick : Pick) {s : Fs} {file off len : Nat} (buf : Nat → UInt8)
    (h : OpenFile s file) (hend : off + len < addrSpace)
    (hroom : off + len ≤ (s.node file).cap ∨ ∃ c, FirstRoom (s.node file).cap (off + len) c) :
    Safe s file (WriteTouches (s.node file).size off len)
      (vfsWrite pick s file buf off len) := by
  have hwrite := h.vfsWrite_eq pick buf hend fun hcap => by
    obtain ⟨c, hc⟩ := hroom.resolve_left (Nat.not_le.mpr hcap)
    have hle := hc.le
    exact ⟨c, growCap_of_firstRoom hcap hend hc, hle, by omega⟩
  cases hg : growBuffer pick s.heap (s.node file).data (s.node file).cap (off + len) with
  | none =>
    rw [hg] at hwrite
    exact ⟨s, -1, hwrite, .inl ⟨rfl, rfl⟩⟩
  | some p =>
    obtain ⟨heap, data, cap⟩ := p
    rw [hg] at hwrite
    obtain ⟨t, heq, hw, hle⟩ := hwrite
    have hnode : t.node file = { s.node file with
        data := data, cap := cap, size := max (s.node file).size (off + len) } := by
      rw [hw.node, Function.update_self]
    have hsize : (s.node file).size ≤ cap := Nat.le_trans h.size_le (le_of_growBuffer hg hle)
    refine ⟨t, toInt len, heq, .inr ⟨?_, fun i hi => ?_⟩⟩
    · rw [hnode]
      exact hw.outside
    · rw [hnode]
      change i < cap
      rcases hi with hi | ⟨-, hi⟩ | ⟨-, hi⟩ <;> omega

/-- A write for which the heap has no block fails. -/
theorem OpenFile.vfsWrite_refused {pick : Pick} {s : Fs} {file off len : Nat}
    (buf : Nat → UInt8) (h : OpenFile s file) (hcap : (s.node file).cap < add64 off len)
    (href : Refused pick s.heap (s.node file).cap (add64 off len)) :
    vfsWrite pick s file buf off len = some (s, -1) := by
  obtain ⟨c, hc, hzero⟩ := href
  have hgrowCap := growCap_of_firstRoom hcap (add64_lt off len) hc
  have halloc : s.heap.alloc pick c = (0, s.heap) := by
    rcases Arena.alloc_cases pick c s.heap with hfail | ⟨nd, hfits, hgrant⟩
    · exact hfail
    · rw [hgrant] at hzero
      exact absurd hzero hfits.1
  have hgrow : vfsGrow pick s file (add64 off len) = some (s, false) := by
    simp [vfsGrow, Nat.not_le.mpr hcap, hgrowCap, Fs.malloc, halloc]
  simp [vfsWrite, h.ne_zero, h.notDir, h.writable, hgrow]

/-- Filling goes beyond the buffer when the end wraps: not even the gap before the offset
    lies in a block. -/
theorem OpenFile.vfsFill_eq_none {s : Fs} {file off len : Nat} (buf : Nat → UInt8) (need : Nat)
    (h : OpenFile s file) (hlen : len < addrSpace) (hend : addrSpace ≤ off + len)
    (hoff : off < addrSpace) : vfsFill s file buf off len need = none := by
  have hpos : ∀ b ∈ s.heap.live, 0 < b.1 ∧ b.1 + b.2 ≤ addrSpace := by
    intro b hb
    obtain ⟨h0, -, -, hin, -⟩ := h.heap_ok.inside b hb
    exact ⟨Nat.pos_of_ne_zero h0, Nat.le_trans hin h.hi_le⟩
  by_cases hd : (s.node file).data = 0
  · -- without a buffer the gap starts at address zero
    have hsize : (s.node file).size = 0 := by
      obtain ⟨-, hsize, -⟩ := h.room.resolve_right fun hz => hz.1 hd
      exact hsize
    have hnot : ¬ s.heap.Covers 0 off := by
      rintro (hzero | ⟨b, hb, hle, -⟩)
      · omega
      · exact absurd (hpos b hb).1 (by omega)
    have hzero : zeroGap s (s.node file) off = none := by
      rw [zeroGap, hsize, hd, if_pos (by omega), Nat.zero_add, Nat.sub_zero]
      exact if_neg hnot
    simp [vfsFill, hzero]
  · have hnot : ∀ t : Fs, t.heap = s.heap →
        Fs.memcpyFrom ((s.node file).data + off) buf len t = none := by
      intro t ht
      apply if_neg
      rw [ht]
      rintro (hzero | ⟨b, hb, -, hle⟩)
      · omega
      · exact absurd (hpos b hb).2 (by omega)
    cases hzero : zeroGap s (s.node file) off with
    | none => simp [vfsFill, hzero]
    | some t =>
      have ht : t.heap = s.heap := by
        unfold zeroGap Fs.memzero at hzero
        split at hzero
        · split at hzero
          · cases hzero
            rfl
          · cases hzero
        · cases hzero
          rfl
      simp [vfsFill, hzero, hnot t ht]

/-- A write that does not fit does not end, or leaves the buffer. -/
theorem OpenFile.vfsWrite_eq_none {pick : Pick} {s : Fs} {file off len : Nat}
    (buf : Nat → UInt8) (h : OpenFile s file) (hoff : off < addrSpace) (hlen : len < addrSpace)
    (hfits : ¬ WriteFits pick s.heap (s.node file).cap off len) :
    vfsWrite pick s file buf off len = none := by
  simp only [WriteFits, not_or, not_and, not_exists] at hfits
  obtain ⟨hroom, hrefused⟩ := hfits
  by_cases hno : (s.node file).cap < add64 off len ∧
      ¬ ∃ c, FirstRoom (s.node file).cap (add64 off len) c
  · -- the doubling never ends
    have hgrow : vfsGrow pick s file (add64 off len) = none := by
      simp [vfsGrow, Nat.not_le.mpr hno.1, growCap_eq_none hno.1 (add64_lt off len) hno.2]
    simp [vfsWrite, h.ne_zero, h.notDir, h.writable, hgrow]
  have hend : addrSpace ≤ off + len := by
    by_contra hlt
    have hlt := Nat.lt_of_not_le hlt
    obtain ⟨hcap, hnone⟩ := hroom hlt
    rw [add64_of_lt hlt] at hno
    exact hno ⟨Nat.lt_of_not_le hcap, not_exists.mpr hnone⟩
  have hgrow := @OpenFile.vfsGrow_eq pick s file (add64 off len) h fun hcap => by
    by_contra hnone
    apply hno
    refine ⟨hcap, not_exists.mpr fun c hc => hnone ⟨c, growCap_of_firstRoom hcap (add64_lt off len) hc, hc.le, ?_⟩⟩
    exact Nat.lt_of_lt_of_le (Nat.zero_lt_of_lt hcap) hc.le
  cases hg : growBuffer pick s.heap (s.node file).data (s.node file).cap (add64 off len) with
  | none =>
    -- the heap has a block, so the request did not fail
    exfalso
    have hcap : (s.node file).cap < add64 off len := by
      by_contra hle
      rw [growBuffer, if_pos (Nat.le_of_not_lt hle)] at hg
      cases hg
    obtain ⟨c, hc⟩ := not_not.mp fun hnone => hno ⟨hcap, hnone⟩
    apply hrefused hcap
    exact ⟨c, hc, h.refused_of_growBuffer hcap (growCap_of_firstRoom hcap (add64_lt off len) hc) hg⟩
  | some p =>
    obtain ⟨heap, data, cap⟩ := p
    rw [hg] at hgrow
    obtain ⟨mem, hgrow, -, -, -, hopen⟩ := hgrow
    have hfill := hopen.vfsFill_eq_none buf (add64 off len) hlen hend hoff
    rw [vfsWrite, if_neg (by simp [h.ne_zero, h.notDir, h.writable])]
    simp only [hgrow, Option.bind_eq_bind, Option.bind_some, Bool.not_true, Bool.false_eq_true,
      if_false, hfill, Option.bind_none]

theorem OpenFile.vfsWrite_safe_iff (pick : Pick) {s : Fs} {file off len : Nat}
    (buf : Nat → UInt8) (h : OpenFile s file) (hoff : off < addrSpace) (hlen : len < addrSpace) :
    Safe s file (WriteTouches (s.node file).size off len) (vfsWrite pick s file buf off len) ↔
      WriteFits pick s.heap (s.node file).cap off len := by
  constructor
  · intro hsafe
    by_contra hfits
    obtain ⟨t, r, heq, -⟩ := hsafe
    rw [h.vfsWrite_eq_none buf hoff hlen hfits] at heq
    cases heq
  · rintro (⟨hend, hroom⟩ | ⟨hcap, href⟩)
    · exact h.vfsWrite_safe pick buf hend hroom
    · exact ⟨s, -1, h.vfsWrite_refused buf hcap href, .inl ⟨rfl, rfl⟩⟩

/-! ## Truncation -/

/-- Extending a file writes one zero byte at its new end. -/
theorem OpenFile.vfsTruncate_eq (pick : Pick) {s : Fs} {file size : Nat} (h : OpenFile s file)
    (hsize : size < addrSpace) (hlt : (s.node file).size < size) :
    vfsTruncate pick s file size =
      (vfsWrite pick s file (fun _ => 0) (size - 1) 1).map fun p =>
        (p.1, if p.2 < 0 then -1 else 0) := by
  have hsub : sub64 size 1 = size - 1 := sub64_of_le hsize (by omega)
  simp only [vfsTruncate, h.ne_zero, h.notDir, h.writable, hsub, Nat.not_le.mpr hlt, or_self,
    if_false, Bool.false_eq_true]
  cases vfsWrite pick s file (fun _ => 0) (size - 1) 1 <;> rfl

theorem OpenFile.vfsTruncate_safe_iff (pick : Pick) {s : Fs} {file size : Nat}
    (h : OpenFile s file) (hsize : size < addrSpace) :
    Safe s file (TruncateTouches (s.node file).size size) (vfsTruncate pick s file size) ↔
      TruncateFits (s.node file).cap size := by
  by_cases hle : size ≤ (s.node file).size
  · -- a shorter file only gets a new size
    have hfits : TruncateFits (s.node file).cap size := .inl (Nat.le_trans hle h.size_le)
    refine iff_of_true ⟨s.setNode file { s.node file with size := size }, 0, ?_,
      .inr ⟨?_, fun i hi => ?_⟩⟩ hfits
    · simp [vfsTruncate, h.ne_zero, h.notDir, h.writable, hle]
    · exact .refl _ _ _
    · exact absurd hi.1 (Nat.not_lt.mpr hle)
  have hlt := Nat.lt_of_not_le hle
  have hend : size - 1 + 1 = size := Nat.sub_add_cancel (Nat.one_le_of_lt hlt)
  have hfits : WriteFits pick s.heap (s.node file).cap (size - 1) 1 ↔
      TruncateFits (s.node file).cap size := by
    rw [WriteFits, hend, add64_of_lt (by omega), hend, TruncateFits]
    constructor
    · rintro (⟨-, hroom⟩ | ⟨-, c, hc, -⟩)
      · exact hroom
      · exact .inr ⟨c, hc⟩
    · exact fun hroom => .inl ⟨hsize, hroom⟩
  have hlast : size - 1 < addrSpace := Nat.lt_of_le_of_lt (Nat.sub_le ..) hsize
  have hone : 1 < addrSpace := by rw [addrSpace_eq]; decide
  have hwrite := h.vfsWrite_safe_iff pick (fun _ => 0) hlast hone
  rw [h.vfsTruncate_eq pick hsize hlt, ← hfits, ← hwrite]
  constructor
  · rintro ⟨t, r, heq, -⟩
    -- a call that ended has ended the write
    by_contra hno
    have hnone := h.vfsWrite_eq_none (fun _ => 0) hlast hone (hwrite.not.mp hno)
    rw [hnone] at heq
    cases heq
  · rintro ⟨t, r, heq, ⟨rfl, rfl⟩ | ⟨hout, hin⟩⟩
    · exact ⟨t, -1, by rw [heq]; rfl, .inl ⟨rfl, rfl⟩⟩
    · exact ⟨t, _, by rw [heq]; rfl, .inr ⟨hout, fun i hi => hin i hi.2⟩⟩

/-! ## Every argument -/

/-- `vfs_write` and `vfs_truncate` are safe exactly for the arguments that fit. -/
theorem write_truncate_safe_iff (pick : Pick) {s : Fs} {file off len size : Nat}
    (buf : Nat → UInt8) (h : OpenFile s file) (hoff : off < addrSpace) (hlen : len < addrSpace)
    (hsize : size < addrSpace) :
    (Safe s file (WriteTouches (s.node file).size off len) (vfsWrite pick s file buf off len) ↔
      WriteFits pick s.heap (s.node file).cap off len) ∧
    (Safe s file (TruncateTouches (s.node file).size size) (vfsTruncate pick s file size) ↔
      TruncateFits (s.node file).cap size) := by
  constructor
  · exact h.vfsWrite_safe_iff pick buf hoff hlen
  · exact h.vfsTruncate_safe_iff pick hsize

theorem openFile_newFile : OpenFile newFile 0x10000 := by
  obtain ⟨nodes, kids, hs⟩ := reachable_fsInv reachable_newFile
  have hdir : (newFile.node 0x10000).isDir = false := by decide +kernel
  refine hs.openFile ?_ hdir (by decide +kernel)
  exact hs.file_mem (.inr ((hs.inTree_iff _).mp inTree_newFile)) (by decide) hdir

theorem write_truncate_safe_iff_boot :
    Safe newFile 0x10000 (WriteTouches 0 70 3)
      (vfsWrite pickNext newFile 0x10000 (fun _ => 7) 70 3) ∧
    Safe newFile 0x10000 (TruncateTouches 0 100) (vfsTruncate pickNext newFile 0x10000 100) := by
  have hsmall : 100 < addrSpace := by rw [addrSpace_eq]; decide
  have hstart : (newFile.node 0x10000).cap = 0 := by decide +kernel
  have hsize : (newFile.node 0x10000).size = 0 := by decide +kernel
  have hpow : ∀ k ≤ 1, doubled 0 k = 64 * 2 ^ k := by
    intro k hk
    have hle : 2 ^ k ≤ 2 ^ 1 := Nat.pow_le_pow_right (by decide) hk
    rw [doubled, startCap, if_neg (by decide), Nat.mod_eq_of_lt (by rw [addrSpace_eq]; omega)]
  -- one doubling makes 128 bytes
  have hroom : ∀ need, 64 < need → need ≤ 128 → FirstRoom 0 need 128 := by
    intro need hlo hhi
    have hone := hpow 1 (by decide)
    refine ⟨1, by omega, hhi, fun j hj => ?_⟩
    obtain rfl : j = 0 := by omega
    rw [hpow 0 (by decide)]
    omega
  have hsafe := @write_truncate_safe_iff pickNext newFile 0x10000 70 3 100 (fun _ => 7) openFile_newFile (by omega) (by omega) hsmall
  rw [hstart, hsize] at hsafe
  constructor
  · apply hsafe.1.mpr
    exact .inl ⟨by omega, .inr ⟨128, hroom _ (by decide) (by decide)⟩⟩
  · apply hsafe.2.mpr
    exact .inr ⟨128, hroom _ (by decide) (by decide)⟩

/-- No power of two from 64 on has room for `2 ^ 63 + 1` bytes. -/
theorem not_truncateFits : ¬ TruncateFits 0 (2 ^ 63 + 1) := by
  rintro (hle | ⟨c, k, rfl, hle, -⟩)
  · omega
  rcases Nat.lt_or_ge k 64 with hk | hk
  · have hsmall : ∀ k < 64, 64 * 2 ^ k % 18446744073709551616 ≤ 2 ^ 63 := by decide
    rw [doubled, addrSpace_eq] at hle
    exact absurd (Nat.le_trans hle (hsmall k hk)) (by decide)
  · rw [doubled_of_le 0 hk] at hle
    omega

/-- One byte at the last offset of all makes the sum zero, and the gap before it is far longer
    than any buffer. The capacity for `2 ^ 63 + 1` bytes is never reached. -/
theorem not_write_truncate_safe :
    ¬ Safe newFile 0x10000 (WriteTouches (newFile.node 0x10000).size (addrSpace - 1) 1)
      (vfsWrite pickNext newFile 0x10000 (fun _ => 7) (addrSpace - 1) 1) ∧
    ¬ Safe newFile 0x10000 (TruncateTouches (newFile.node 0x10000).size (2 ^ 63 + 1))
      (vfsTruncate pickNext newFile 0x10000 (2 ^ 63 + 1)) := by
  constructor
  · rintro ⟨t, r, heq, -⟩
    have hnone : vfsWrite pickNext newFile 0x10000 (fun _ => 7) (addrSpace - 1) 1 = none := by
      rw [addrSpace_eq]
      decide +kernel
    rw [hnone] at heq
    cases heq
  · intro hsafe
    have hcap : (newFile.node 0x10000).cap = 0 := by decide +kernel
    have hfits := (openFile_newFile.vfsTruncate_safe_iff pickNext
      (show 2 ^ 63 + 1 < addrSpace by rw [addrSpace_eq]; decide)).mp hsafe
    rw [hcap] at hfits
    exact not_truncateFits hfits

end ChocoOs.Vfs
