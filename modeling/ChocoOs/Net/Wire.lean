import ChocoOs.Lib.Word
import ChocoOs.Lib.Checksum

/-!
# Wire formats

Byte order, header fields and buffers of a fixed size. `none` means that a byte outside a buffer is
read or written.
-/

namespace ChocoOs.Net
open ProgLib

/-- `FRAME_MAX` -/
def frameMax : Nat := 1600

/-- `ETH_ARP` -/
def ethArp : Nat := 0x0806

/-- `ETH_IP` -/
def ethIp : Nat := 0x0800

/-- `IP_PROTO_ICMP` -/
def ipProtoIcmp : UInt8 := 1

/-- `IP_PROTO_UDP` -/
def ipProtoUdp : UInt8 := 17

/-- `htons16` (`net.c:25`): the halves of a 16-bit number change places. -/
def htons16 (v : Nat) : Nat := v % 65536 / 256 + v % 256 * 256

/-- A `uint16_t` field that `v` is stored to through `htons16`. -/
def net16 (v : Nat) : List UInt8 := leBytes 2 (htons16 v)

/-- The bytes of a field. -/
def field (b : List UInt8) (off n : Nat) : Option (List UInt8) :=
  if off + n ≤ b.length then some ((b.drop off).take n) else none

/-- A `uint16_t` field as it lies in memory. -/
def get16 (b : List UInt8) (off : Nat) : Option Nat := (field b off 2).map leNat

/-- A `uint32_t` field as it lies in memory; addresses stay in network order. -/
def get32 (b : List UInt8) (off : Nat) : Option Nat := (field b off 4).map leNat

/-- `memcpy(buf + off, src, …)` into a buffer of `cap` bytes. -/
def store (cap : Nat) (buf : List UInt8) (off : Nat) (src : List UInt8) : Option (List UInt8) :=
  if off + src.length ≤ cap then some (buf.take off ++ src ++ buf.drop (off + src.length)) else none

/-- `checksum16` (`net.c:71-86`), as a number that is stored as it is. At most 800 words are summed,
    so that 32 bits hold the sum. -/
def checksum16 (data : List UInt8) (start : Nat) : Nat :=
  htons16 (65535 - onesSum (start + wordSum data))

/-- A message sums to `0xFFFF` with its checksum in place. -/
def ChecksumOk (data : List UInt8) : Prop := onesSum (wordSum data) = 65535

/-- The two halves of a number. -/
theorem htons16_halves {hi lo : Nat} (hhi : hi < 256) (hlo : lo < 256) :
    htons16 (hi * 256 + lo) = lo * 256 + hi := by
  unfold htons16
  omega

theorem exists_halves (v : Nat) :
    ∃ hi < 256, ∃ lo < 256, v % 65536 = hi * 256 + lo ∧ v / 256 % 256 = hi ∧ v % 256 = lo :=
  ⟨v % 65536 / 256, by omega, v % 256, by omega, by omega, by omega, rfl⟩

theorem htons16_mod (v : Nat) : htons16 (v % 65536) = htons16 v := by
  unfold htons16
  omega

theorem htons16_htons16 (v : Nat) : htons16 (htons16 v) = v % 65536 := by
  obtain ⟨hi, hhi, lo, hlo, hv, -, -⟩ := exists_halves v
  rw [← htons16_mod v, hv, htons16_halves hhi hlo, htons16_halves hlo hhi]

theorem htons16_lt (v : Nat) : htons16 v < 65536 := by
  unfold htons16
  omega

theorem net16_eq (v : Nat) : net16 v = [UInt8.ofNat (v / 256), UInt8.ofNat v] := by
  obtain ⟨hi, hhi, lo, hlo, hv, hv', hv''⟩ := exists_halves v
  have hbyte : ∀ {a b : Nat}, a % 256 = b % 256 → UInt8.ofNat a = UInt8.ofNat b := fun h => by
    rw [← UInt8.toNat_inj, UInt8.toNat_ofNat', UInt8.toNat_ofNat', h]
  have hdiv : (lo * 256 + hi) / 256 = lo := by omega
  rw [net16, ← htons16_mod, hv, htons16_halves hhi hlo, leBytes, leBytes, leBytes, hdiv,
    hbyte (show (lo * 256 + hi) % 256 = v / 256 % 256 by omega),
    hbyte (show lo % 256 = v % 256 by omega)]

theorem net16_length (v : Nat) : (net16 v).length = 2 := leBytes_length 2 _

/-- What `htons16` reads of a field that was stored through it. -/
theorem leNat_net16 (v : Nat) : htons16 (leNat (net16 v)) = v % 65536 := by
  rw [net16, leNat_leBytes (htons16_lt v), htons16_htons16]

theorem wordSum_net16 {v : Nat} (h : v < 65536) : wordSum (net16 v) = v := by
  rw [net16_eq, wordSum, wordSum, UInt8.toNat_ofNat', UInt8.toNat_ofNat']
  omega

/-- The two bytes of a stored checksum. -/
theorem leBytes_checksum16 (data : List UInt8) (start : Nat) :
    leBytes 2 (checksum16 data start) = net16 (65535 - onesSum (start + wordSum data)) := rfl

/-- A zeroed checksum field at an even place, filled in. -/
theorem checksumOk_fill {a b : List UInt8} (ha : a.length % 2 = 0) :
    ChecksumOk (a ++ leBytes 2 (checksum16 (a ++ [0, 0] ++ b) 0) ++ b) := by
  have h0 : wordSum (a ++ [0, 0] ++ b) = wordSum a + wordSum b := by
    rw [List.append_assoc, wordSum_append ha]
    exact congrArg _ (Nat.zero_add _)
  rw [leBytes_checksum16, h0, Nat.zero_add]
  have hsum : ∀ c < 65536, wordSum (a ++ net16 c ++ b) = wordSum a + wordSum b + c := by
    intro c hc
    rw [List.append_assoc, wordSum_append ha, wordSum_append (by rw [net16_length]),
      wordSum_net16 hc]
    omega
  unfold ChecksumOk
  rw [hsum _ (by omega)]
  exact onesSum_complement _

/-- A field behind a prefix. -/
theorem field_append {a f b : List UInt8} {off n : Nat} (ha : a.length = off) (hf : f.length = n) :
    field (a ++ f ++ b) off n = some f := by
  subst ha hf
  have hlen : a.length + f.length ≤ (a ++ f ++ b).length := by
    simp only [List.length_append]
    omega
  rw [field, if_pos hlen, List.append_assoc, List.drop_left, List.take_left]

theorem getElem?_at {r pre post : List UInt8} {i : Nat} {b : UInt8} (h : r = pre ++ b :: post)
    (hi : i = pre.length) : r[i]? = some b := by
  rw [h, hi, List.getElem?_append_right (Nat.le_refl _), Nat.sub_self]
  rfl

end ChocoOs.Net
