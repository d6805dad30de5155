import ChocoOs.Net.Receive
import Mathlib.Data.List.Induction

/-!
# The ARP cache

A put writes one entry: that of the address, else the first free one, else the first. So the table
stays a partial map, and what is found in it is what was put last.
-/

namespace ChocoOs.Net

/-- One put after another. -/
def arpPuts (cache : List ArpEntry) (puts : List (Nat × List UInt8)) : List ArpEntry :=
  puts.foldl (fun cache p => arpCachePut cache p.1 p.2) cache

/-- `arp_cache` before the first put: no entry is valid. -/
def ArpEmpty (cache : List ArpEntry) : Prop :=
  cache.length = arpCacheSize ∧ ∀ e ∈ cache, e.valid = false

/-- The MAC of the most recent put for an address. -/
def lastPut (puts : List (Nat × List UInt8)) (ip : Nat) : Option (List UInt8) :=
  (puts.reverse.find? fun p => p.1 = ip).map Prod.snd

/-- At most one valid entry exists for each address. -/
def ArpUnique (cache : List ArpEntry) : Prop :=
  ∀ (i j : Nat) (e e' : ArpEntry), cache[i]? = some e → cache[j]? = some e' → e.valid = true →
    e'.valid = true → e.ip = e'.ip → i = j

/-- What holds of the cache after any puts, and of one more put. -/
structure ArpCoherent (puts : List (Nat × List UInt8)) (cache : List ArpEntry) : Prop where
  unique : ArpUnique cache
  finds : ∀ ip mac, arpCacheGet (arpCachePut cache ip mac) ip = some mac
  latest : ∀ ip mac, arpCacheGet cache ip = some mac → lastPut puts ip = some mac
  evicts : ∀ ip ip' mac', arpCacheGet cache ip ≠ none →
    arpCacheGet (arpCachePut cache ip' mac') ip = none →
    ip' ≠ ip ∧ arpCacheGet cache ip' = none ∧ ∀ e ∈ cache, e.valid = true

section put

variable {cache : List ArpEntry} {ip : Nat} {mac : List UInt8}

/-- What a lookup finds is a valid entry. -/
theorem mem_of_arpCacheGet (h : arpCacheGet cache ip = some mac) : ⟨ip, mac, true⟩ ∈ cache := by
  obtain ⟨e, hfind, rfl⟩ := Option.map_eq_some_iff.mp h
  have he := List.find?_some hfind
  simp only [Bool.and_eq_true, decide_eq_true_eq] at he
  obtain ⟨hvalid, rfl⟩ := he
  rw [← hvalid]
  exact List.mem_of_find?_eq_some hfind

/-- A lookup fails where no valid entry has the address. -/
theorem arpCacheGet_eq_none_iff :
    arpCacheGet cache ip = none ↔ ∀ e ∈ cache, e.valid = true → e.ip ≠ ip := by
  rw [arpCacheGet, Option.map_eq_none_iff, List.find?_eq_none]
  simp only [Bool.and_eq_true, decide_eq_true_eq, not_and, ne_eq]

theorem arpCacheGet_eq_some_iff (hu : ArpUnique cache) :
    arpCacheGet cache ip = some mac ↔ ⟨ip, mac, true⟩ ∈ cache := by
  refine ⟨mem_of_arpCacheGet, fun h => ?_⟩
  cases hget : arpCacheGet cache ip with
  | none => exact absurd rfl (arpCacheGet_eq_none_iff.mp hget _ h rfl)
  | some mac' =>
    obtain ⟨i, hi⟩ := List.mem_iff_getElem?.mp h
    obtain ⟨j, hj⟩ := List.mem_iff_getElem?.mp (mem_of_arpCacheGet hget)
    obtain rfl := hu i j _ _ hi hj rfl rfl rfl
    rw [hi] at hj
    cases hj
    rfl

/-- All that a put does. It writes the whole entry at some place; every other valid entry has
    another address; and a valid entry of another address is overwritten only where no entry is free
    or has this address. -/
theorem arpCachePut_cases (hu : ArpUnique cache) (hlen : 0 < cache.length) (ip : Nat)
    (mac : List UInt8) : ∃ i < cache.length, arpCachePut cache ip mac = cache.set i ⟨ip, mac, true⟩ ∧
      (∀ (j : Nat) (e : ArpEntry), cache[j]? = some e → e.valid = true → e.ip = ip → j = i) ∧
      (∀ e, cache[i]? = some e → e.valid = true → e.ip ≠ ip →
        (∀ e' ∈ cache, e'.valid = true) ∧ arpCacheGet cache ip = none) := by
  have hset : ∀ (i : Nat) (f : ArpEntry → ArpEntry) (hi : i < cache.length),
      f cache[i] = ⟨ip, mac, true⟩ → setEntry cache i f = cache.set i ⟨ip, mac, true⟩ := by
    intro i f hi hf
    apply List.ext_getElem?
    intro j
    rw [setEntry]
    by_cases hj : i = j
    · subst hj
      rw [List.getElem?_modify_eq, List.getElem?_set_self hi, List.getElem?_eq_getElem hi, ← hf]
      rfl
    · rw [List.getElem?_modify_ne _ _ hj, List.getElem?_set_ne hj]
  unfold arpCachePut
  split
  · next i hfind =>
    -- the entry of the address is updated
    obtain ⟨hi, hentry, -⟩ := List.findIdx?_eq_some_iff_getElem.mp hfind
    simp only [Bool.and_eq_true, decide_eq_true_eq] at hentry
    have hget : cache[i]? = some cache[i] := List.getElem?_eq_getElem hi
    refine ⟨i, hi, hset i _ hi ?_, ?_, ?_⟩
    · rw [← hentry.1, ← hentry.2]
    · intro j e hj hvalid hip
      exact hu j i _ _ hj hget hvalid hentry.1 (hip.trans hentry.2.symm)
    · intro e he _ hne
      rw [hget] at he
      cases he
      exact absurd hentry.2 hne
  · next hfind =>
    have hnone : ∀ e ∈ cache, e.valid = true → e.ip ≠ ip := by
      intro e he hvalid hip
      have := List.findIdx?_eq_none_iff.mp hfind e he
      rw [hvalid, hip] at this
      simp at this
    have hother : ∀ (i j : Nat) (e : ArpEntry), cache[j]? = some e → e.valid = true → e.ip = ip → j = i := by
      intro i j e hj hvalid hip
      exact absurd hip (hnone e (List.mem_of_getElem? hj) hvalid)
    split
    · next i hfree =>
      -- a free entry is filled
      obtain ⟨hi, hentry, -⟩ := List.findIdx?_eq_some_iff_getElem.mp hfree
      refine ⟨i, hi, hset i _ hi rfl, hother i, ?_⟩
      intro e he hvalid
      rw [List.getElem?_eq_getElem hi] at he
      cases he
      rw [hvalid] at hentry
      cases hentry
    · next hfull =>
      -- the first entry is evicted
      have hall : ∀ e ∈ cache, e.valid = true := by
        intro e he
        have := List.findIdx?_eq_none_iff.mp hfull e he
        simpa using this
      refine ⟨0, hlen, hset 0 _ hlen ?_, hother 0, ?_⟩
      · rw [hall _ (List.getElem_mem hlen)]
      · exact fun _ _ _ _ => ⟨hall, arpCacheGet_eq_none_iff.mpr hnone⟩

theorem arpUnique_put (hu : ArpUnique cache) (hlen : 0 < cache.length) (ip : Nat) (mac : List UInt8) :
    ArpUnique (arpCachePut cache ip mac) := by
  obtain ⟨k, hk, hput, hother, -⟩ := arpCachePut_cases hu hlen ip mac
  intro i j e e' hi hj hvalid hvalid' hip
  rw [hput] at hi hj
  by_cases hik : k = i
  · by_cases hjk : k = j
    · rw [← hik, ← hjk]
    · rw [List.getElem?_set_ne hjk] at hj
      rw [← hik, List.getElem?_set_self hk] at hi
      cases hi
      exact absurd (hother j e' hj hvalid' hip.symm).symm hjk
  · rw [List.getElem?_set_ne hik] at hi
    by_cases hjk : k = j
    · rw [← hjk, List.getElem?_set_self hk] at hj
      cases hj
      exact absurd (hother i e hi hvalid hip).symm hik
    · rw [List.getElem?_set_ne hjk] at hj
      exact hu i j e e' hi hj hvalid hvalid' hip

theorem arpCacheGet_put (hu : ArpUnique cache) (hlen : 0 < cache.length) (ip : Nat)
    (mac : List UInt8) : arpCacheGet (arpCachePut cache ip mac) ip = some mac := by
  rw [arpCacheGet_eq_some_iff (arpUnique_put hu hlen ip mac)]
  obtain ⟨k, hk, hput, -⟩ := arpCachePut_cases hu hlen ip mac
  rw [hput]
  exact List.mem_set hk _

/-- A put for another address leaves an entry alone, or removes it. -/
theorem arpCacheGet_put_ne (hu : ArpUnique cache) (hlen : 0 < cache.length) {ip ip' : Nat}
    (hne : ip' ≠ ip) (mac mac' : List UInt8)
    (h : arpCacheGet (arpCachePut cache ip' mac') ip = some mac) : arpCacheGet cache ip = some mac := by
  rw [arpCacheGet_eq_some_iff (arpUnique_put hu hlen ip' mac')] at h
  rw [arpCacheGet_eq_some_iff hu]
  obtain ⟨k, -, hput, -⟩ := arpCachePut_cases hu hlen ip' mac'
  rw [hput] at h
  rcases List.mem_or_eq_of_mem_set h with h | h
  · exact h
  · cases h
    exact absurd rfl hne

/-- An address that a put removes was overwritten in a full cache, by an address that was not there. -/
theorem arpCachePut_evicts (hu : ArpUnique cache) (hlen : 0 < cache.length) {ip ip' : Nat}
    {mac' : List UInt8} (hget : arpCacheGet cache ip ≠ none)
    (hgone : arpCacheGet (arpCachePut cache ip' mac') ip = none) :
    ip' ≠ ip ∧ arpCacheGet cache ip' = none ∧ ∀ e ∈ cache, e.valid = true := by
  have hne : ip' ≠ ip := by
    rintro rfl
    rw [arpCacheGet_put hu hlen] at hgone
    cases hgone
  obtain ⟨mac, hmac⟩ := Option.ne_none_iff_exists'.mp hget
  obtain ⟨j, hj⟩ := List.mem_iff_getElem?.mp (mem_of_arpCacheGet hmac)
  obtain ⟨k, hk, hput, -, hover⟩ := arpCachePut_cases hu hlen ip' mac'
  have hjk : k = j := by
    by_contra hjk
    rw [hput] at hgone
    refine arpCacheGet_eq_none_iff.mp hgone ⟨ip, mac, true⟩ ?_ rfl rfl
    apply List.mem_of_getElem? (i := j)
    rw [List.getElem?_set_ne hjk]
    exact hj
  obtain ⟨hall, hnone⟩ := hover _ (hjk ▸ hj) rfl (Ne.symm hne)
  exact ⟨hne, hnone, hall⟩

end put

/-! ## Sequences of puts -/

theorem arpPuts_concat (cache : List ArpEntry) (puts : List (Nat × List UInt8)) (ip : Nat)
    (mac : List UInt8) :
    arpPuts cache (puts ++ [(ip, mac)]) = arpCachePut (arpPuts cache puts) ip mac := by
  rw [arpPuts, List.foldl_append]
  rfl

theorem lastPut_concat (puts : List (Nat × List UInt8)) (ip ip' : Nat) (mac' : List UInt8) :
    lastPut (puts ++ [(ip', mac')]) ip = if ip' = ip then some mac' else lastPut puts ip := by
  rw [lastPut, List.reverse_append, List.reverse_singleton, List.singleton_append, List.find?_cons]
  by_cases h : ip' = ip
  · rw [if_pos h, decide_eq_true h]
    rfl
  · rw [if_neg h, decide_eq_false h]
    rfl

/-- The invariant of a run of puts. -/
theorem arpPuts_inv {cache : List ArpEntry} (hempty : ArpEmpty cache) (puts : List (Nat × List UInt8)) :
    (arpPuts cache puts).length = arpCacheSize ∧ ArpUnique (arpPuts cache puts) ∧
      ∀ ip mac, arpCacheGet (arpPuts cache puts) ip = some mac → lastPut puts ip = some mac := by
  induction puts using List.reverseRecOn with
  | nil =>
    obtain ⟨hlen, hinvalid⟩ := hempty
    refine ⟨hlen, ?_, ?_⟩
    · intro i j e e' hi _ hvalid
      rw [hinvalid e (List.mem_of_getElem? hi)] at hvalid
      cases hvalid
    · intro ip mac h
      exact absurd (hinvalid _ (mem_of_arpCacheGet h)) Bool.noConfusion
  | append_singleton puts p ih =>
    obtain ⟨ip', mac'⟩ := p
    obtain ⟨hlen, hu, hlatest⟩ := ih
    have hpos : 0 < (arpPuts cache puts).length := by
      rw [hlen]
      decide
    rw [arpPuts_concat]
    refine ⟨(arpCachePut_length _ ip' mac').trans hlen, arpUnique_put hu hpos ip' mac', ?_⟩
    intro ip mac h
    rw [lastPut_concat]
    by_cases heq : ip' = ip
    · subst heq
      rw [arpCacheGet_put hu hpos] at h
      rw [if_pos rfl, h]
    · rw [if_neg heq]
      exact hlatest ip mac (arpCacheGet_put_ne hu hpos heq mac mac' h)

/-- From the empty cache every sequence of puts leaves a coherent one. -/
theorem arpCache_coherent (cache : List ArpEntry) (hempty : ArpEmpty cache)
    (puts : List (Nat × List UInt8)) : ArpCoherent puts (arpPuts cache puts) := by
  obtain ⟨hlen, hu, hlatest⟩ := arpPuts_inv hempty puts
  have hpos : 0 < (arpPuts cache puts).length := by
    rw [hlen]
    decide
  exact {
    unique := hu
    finds := fun ip mac => arpCacheGet_put hu hpos ip mac
    latest := hlatest
    evicts := fun _ _ _ hget hgone => arpCachePut_evicts hu hpos hget hgone }

/-- The table as it is at boot. -/
theorem arpCache_coherent_boot : ArpCoherent [(7, [1, 2, 3, 4, 5, 6])]
    (arpPuts (List.replicate arpCacheSize ⟨0, List.replicate 6 0, false⟩) [(7, [1, 2, 3, 4, 5, 6])]) :=
  arpCache_coherent _ ⟨List.length_replicate .., fun e he => by rw [List.eq_of_mem_replicate he]⟩
    [(7, [1, 2, 3, 4, 5, 6])]

end ChocoOs.Net
