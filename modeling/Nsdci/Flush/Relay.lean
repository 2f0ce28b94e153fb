import Nsdci.Flush
import Nsdci.Lib.Table

/-!
# Flush requests and repeaters

A flush request names a cache, and an entry of it or none. `NcfSend` writes the name, the key and a
flag as three strings, with an empty key and the flag `NCF_ALLKEYS` for the whole cache. A repeater
parses the message and writes it again, and `NcfRecv` of a client parses it and flushes. Messages of
an earlier version have no flag.

`NcfRecv` takes every message with an empty key for one that is about whole caches, so a request for
the entry with the empty key flushes nothing.
-/

namespace Nsdci.Flush

open Lib

variable {α : Type}

/-- The caches of a client, each with its entries. -/
abbrev Caches (α : Type) := AList fun _ : Bytes => AList fun _ : Bytes => α

/-- A flush: `Ns_CacheFlushEntry` or `Ns_CacheFlush`. -/
inductive Op where
  | entry (name key : Bytes)
  | cache (name : Bytes)
  deriving DecidableEq

/-- The empty string, which is also `NCF_NONE`. -/
def ncfNone : CStr := ⟨[], nulFree_nil⟩

/-- `NCF_ALLKEYS`. -/
def ncfAllKeys : CStr := toCStr [65, 67]

/-- `NCF_ALLCACHE`. -/
def ncfAllCache : CStr := toCStr [65, 75]

/-- The data of the message `NcfSend` builds. -/
def ncfSend (cache key flag : CStr) : Bytes := asciz cache.1 ++ asciz key.1 ++ asciz flag.1

/-- The data of a message of the earlier version. -/
def oldMsg (cache key : CStr) : Bytes := asciz cache.1 ++ asciz key.1

/-- `Dci_NcfSend`. -/
def dciNcfSend (cache : CStr) (key : Option CStr) : Bytes :=
  match key with
  | none => ncfSend cache ncfNone ncfAllKeys
  | some key => ncfSend cache key ncfNone

/-- `NcfParseMsg`: the name, the key and the flag. -/
def ncfParseMsg (ds : Bytes) : CStr × CStr × CStr :=
  let name := toCStr ds
  let off := name.1.length + 1
  let key := toCStr (ds.drop off)
  -- an `unsigned int`, which is large when the message has no NUL at all
  let keylen := if ds.length < off then 2 ^ 32 - 1 else ds.length - off
  let flag := if keylen > key.1.length + 1 then toCStr (ds.drop (off + (key.1.length + 1)))
    else ncfNone
  (name, key, flag)

/-- `NcfRepeat`: the message it sends. -/
def ncfRepeat (ds : Bytes) : Bytes :=
  let m := ncfParseMsg ds
  ncfSend m.1 m.2.1 m.2.2

/-- `NcfFlushCache`. -/
def ncfFlushCache (caches : Caches α) (name : Bytes) : Caches α × List Op :=
  match caches.lookup name with
  | none => (caches, [])
  | some _ => (caches.insert name ∅, [.cache name])

/-- `NcfFlushAll`, of the caches that were registered. -/
def ncfFlushAll (flushList : List Bytes) (caches : Caches α) : Caches α × List Op :=
  flushList.foldl (fun r name =>
    let r' := ncfFlushCache r.1 name
    (r'.1, r.2 ++ r'.2)) (caches, [])

/-- `NcfRecv`: the caches after it, and what it flushed. -/
def ncfRecv (flushList : List Bytes) (caches : Caches α) (ds : Bytes) : Caches α × List Op :=
  let m := ncfParseMsg ds
  if m.2.1 = ncfNone then
    if m.2.2 = ncfAllCache then ncfFlushAll flushList caches
    else if m.2.2 = ncfAllKeys then ncfFlushCache caches m.1.1
    else (caches, [])
  else
    match caches.lookup m.1.1 with
    | none => (caches, [])
    | some cache =>
        match cache.lookup m.2.1.1 with
        | none => (caches, [])
        | some _ => (caches.insert m.1.1 (cache.erase m.2.1.1), [.entry m.1.1 m.2.1.1])

/-! ## What a request is for -/

/-- An entry of a cache. -/
def entryOf (caches : Caches α) (name key : Bytes) : Option α :=
  (caches.lookup name).bind fun cache => cache.lookup key

/-- What there is to flush for a request: the entry or the whole cache. -/
def requested (caches : Caches α) (name : CStr) : Option CStr → List Op
  | none => if (caches.lookup name.1).isSome then [.cache name.1] else []
  | some key => if (entryOf caches name.1 key.1).isSome then [.entry name.1 key.1] else []

/-- Exactly the requested entry was flushed, or the whole cache if no key was given, and once. -/
structure Flushed (caches : Caches α) (name : CStr) (key : Option CStr)
    (r : Caches α × List Op) : Prop where
  ops : r.2 = requested caches name key
  names : ∀ name', (r.1.lookup name').isSome = (caches.lookup name').isSome
  entries : ∀ name' key', entryOf r.1 name' key' =
    if name' = name.1 ∧ (∀ k ∈ key, key' = k.1) then none else entryOf caches name' key'

/-! ## Messages -/

/-- The string at some bytes that begin with one. -/
theorem toCStr_asciz (s : CStr) (rest : Bytes) : toCStr (asciz s.1 ++ rest) = s := by
  refine Subtype.ext ?_
  show cstr (s.1 ++ [0] ++ rest) = s.1
  rw [List.append_assoc, List.singleton_append, cstr_append_zero, cstr_eq_self s.2]

/-- What is behind a string. -/
theorem drop_asciz (s rest : Bytes) : (asciz s ++ rest).drop (s.length + 1) = rest := by
  rw [asciz, List.append_assoc, List.drop_append]
  simp

/-- A message is parsed into what it was built from. -/
theorem ncfParseMsg_ncfSend (cache key flag : CStr) :
    ncfParseMsg (ncfSend cache key flag) = (cache, key, flag) := by
  have hname : toCStr (ncfSend cache key flag) = cache := by
    rw [ncfSend, List.append_assoc, toCStr_asciz]
  have hdrop : (ncfSend cache key flag).drop (cache.1.length + 1) =
      asciz key.1 ++ asciz flag.1 := by
    rw [ncfSend, List.append_assoc, drop_asciz]
  have hlen : (ncfSend cache key flag).length =
      cache.1.length + 1 + (key.1.length + 1 + (flag.1.length + 1)) := by
    simp only [ncfSend, asciz, List.length_append, List.length_singleton]
    omega
  have hflag : (ncfSend cache key flag).drop (cache.1.length + 1 + (key.1.length + 1)) =
      asciz flag.1 := by
    rw [← List.drop_drop, hdrop, drop_asciz]
  have hself : toCStr (asciz flag.1) = flag := by
    rw [← List.append_nil (asciz flag.1), toCStr_asciz]
  have hfirst : ¬ cache.1.length + 1 + (key.1.length + 1 + (flag.1.length + 1)) <
      cache.1.length + 1 := by omega
  unfold ncfParseMsg
  dsimp only
  rw [hname, hdrop, toCStr_asciz, hflag, hlen, hself, if_neg hfirst, if_pos (by omega)]

/-- A message of the earlier version has no flag. -/
theorem ncfParseMsg_oldMsg (cache key : CStr) :
    ncfParseMsg (oldMsg cache key) = (cache, key, ncfNone) := by
  have hname : toCStr (oldMsg cache key) = cache := by rw [oldMsg, toCStr_asciz]
  have hdrop : (oldMsg cache key).drop (cache.1.length + 1) = asciz key.1 := by
    rw [oldMsg, drop_asciz]
  have hself : toCStr (asciz key.1) = key := by
    rw [← List.append_nil (asciz key.1), toCStr_asciz]
  have hlen : (oldMsg cache key).length = cache.1.length + 1 + (key.1.length + 1) := by
    simp only [oldMsg, asciz, List.length_append, List.length_singleton]
  have hfirst : ¬ cache.1.length + 1 + (key.1.length + 1) < cache.1.length + 1 := by omega
  unfold ncfParseMsg
  dsimp only
  rw [hname, hdrop, hself, hlen, if_neg hfirst, if_neg (by omega)]

/-- A repeater sends the message it got. -/
theorem ncfRepeat_ncfSend (cache key flag : CStr) :
    ncfRepeat (ncfSend cache key flag) = ncfSend cache key flag := by
  rw [ncfRepeat, ncfParseMsg_ncfSend]

/-- And so does a chain of them. -/
theorem iterate_ncfRepeat (cache key flag : CStr) (n : Nat) :
    ncfRepeat^[n] (ncfSend cache key flag) = ncfSend cache key flag := by
  induction n with
  | zero => rfl
  | succ n ih => rw [Function.iterate_succ_apply, ncfRepeat_ncfSend, ih]

/-- Behind a chain of repeaters, a message of the earlier version is parsed alike. -/
theorem ncfParseMsg_iterate_oldMsg (cache key : CStr) (n : Nat) :
    ncfParseMsg (ncfRepeat^[n] (oldMsg cache key)) = (cache, key, ncfNone) := by
  cases n with
  | zero => exact ncfParseMsg_oldMsg cache key
  | succ n =>
      have hfirst : ncfRepeat (oldMsg cache key) = ncfSend cache key ncfNone := by
        rw [ncfRepeat, ncfParseMsg_oldMsg]
      rw [Function.iterate_succ_apply, hfirst, iterate_ncfRepeat, ncfParseMsg_ncfSend]

/-! ## Flushing -/

variable (flushList : List Bytes) (caches : Caches α) (name : CStr)

/-- The whole cache is flushed. -/
theorem flushed_cache : Flushed caches name none (ncfFlushCache caches name.1) := by
  unfold ncfFlushCache
  cases hlookup : caches.lookup name.1 with
  | none =>
      refine ⟨by rw [requested, hlookup]; rfl, fun _ => rfl, fun name' key' => ?_⟩
      split_ifs with hname
      · rw [entryOf, hname.1, hlookup]
        rfl
      · rfl
  | some cache =>
      refine ⟨by rw [requested, hlookup]; rfl, fun name' => ?_, fun name' key' => ?_⟩
      · by_cases hname : name' = name.1
        · rw [hname, AList.lookup_insert, hlookup]
          rfl
        · rw [AList.lookup_insert_ne hname]
      · split_ifs with hname
        · rw [entryOf, hname.1, AList.lookup_insert]
          rfl
        · have hne : name' ≠ name.1 := fun heq => hname ⟨heq, by simp⟩
          rw [entryOf, AList.lookup_insert_ne hne]
          rfl

/-- What `NcfRecv` does with a key that is not empty. -/
theorem ncfRecv_entry {key : CStr} (hkey : key ≠ ncfNone) {ds : Bytes} {flag : CStr}
    (hds : ncfParseMsg ds = (name, key, flag)) :
    Flushed caches name (some key) (ncfRecv flushList caches ds) := by
  unfold ncfRecv
  rw [hds]
  dsimp only
  rw [if_neg hkey]
  have hentry : entryOf caches name.1 key.1 =
      (caches.lookup name.1).bind fun cache => cache.lookup key.1 := rfl
  -- without the entry, there is nothing to flush
  have hnothing : entryOf caches name.1 key.1 = none →
      Flushed caches name (some key) (caches, []) := by
    intro hnone
    refine ⟨by rw [requested, hnone]; rfl, fun _ => rfl, fun name' key' => ?_⟩
    split_ifs with heq
    · rw [heq.1, heq.2 key rfl, hnone]
    · rfl
  split
  next hlookup => exact hnothing (by rw [hentry, hlookup]; rfl)
  next cache hlookup =>
    split
    next hnone => exact hnothing (by rw [hentry, hlookup]; exact hnone)
    next v hsome =>
      have hfound : entryOf caches name.1 key.1 = some v := by rw [hentry, hlookup]; exact hsome
      refine ⟨by rw [requested, hfound]; rfl, fun name' => ?_, fun name' key' => ?_⟩
      · by_cases hname : name' = name.1
        · rw [hname, AList.lookup_insert, hlookup]
          rfl
        · rw [AList.lookup_insert_ne hname]
      · by_cases hname : name' = name.1
        · subst hname
          have hold : entryOf caches name.1 key' = cache.lookup key' := by
            rw [entryOf, hlookup, Option.bind_some]
          rw [entryOf, AList.lookup_insert, Option.bind_some, hold]
          split_ifs with heq
          · rw [heq.2 key rfl, AList.lookup_erase]
          · have hne : key' ≠ key.1 := fun h => heq ⟨rfl, fun k hk => by
              rw [h, Option.some.inj hk]⟩
            rw [AList.lookup_erase_ne hne]
        · rw [if_neg fun heq => hname heq.1, entryOf, AList.lookup_insert_ne hname]
          rfl

/-- A message with neither key nor flag flushes nothing. -/
theorem ncfRecv_nothing {ds : Bytes} (hds : ncfParseMsg ds = (name, ncfNone, ncfNone)) :
    ncfRecv flushList caches ds = (caches, []) := by
  unfold ncfRecv
  rw [hds]
  rfl

/-- Nothing is what a request for the entry with the empty key asks for if there is none. -/
theorem flushed_nothing_iff :
    Flushed caches name (some ncfNone) (caches, []) ↔ entryOf caches name.1 [] = none := by
  constructor
  · intro h
    rw [h.entries name.1 [], if_pos ⟨rfl, fun k hk => by rw [← Option.some.inj hk]; rfl⟩]
  · intro hnone
    have hnone' : entryOf caches name.1 ncfNone.1 = none := hnone
    refine ⟨by rw [requested, hnone']; rfl, fun _ => rfl, fun name' key' => ?_⟩
    split_ifs with heq
    · rw [heq.1, heq.2 ncfNone rfl, hnone']
    · rfl

/-- **Flush requests over repeaters.** A request, in either format and behind any chain of
repeaters, flushes exactly what it names unless that is an entry with the empty key. -/
theorem flush_relayed_iff (key : Option CStr) (repeaters : Nat) :
    (Flushed caches name key
        (ncfRecv flushList caches (ncfRepeat^[repeaters] (dciNcfSend name key))) ∧
      ∀ k ∈ key, Flushed caches name key
        (ncfRecv flushList caches (ncfRepeat^[repeaters] (oldMsg name k)))) ↔
    (key = some ncfNone → entryOf caches name.1 [] = none) := by
  cases key with
  | none =>
      have hwhole : ncfRecv flushList caches (ncfSend name ncfNone ncfAllKeys) =
          ncfFlushCache caches name.1 := by
        unfold ncfRecv
        rw [ncfParseMsg_ncfSend]
        rfl
      rw [dciNcfSend, iterate_ncfRepeat, hwhole]
      exact ⟨fun _ h => absurd h (by simp),
        fun _ => ⟨flushed_cache caches name, fun k hk => absurd hk (by simp)⟩⟩
  | some key =>
      have hold := ncfParseMsg_iterate_oldMsg name key repeaters
      have hnew := ncfParseMsg_ncfSend name key ncfNone
      rw [dciNcfSend, iterate_ncfRepeat]
      by_cases hkey : key = ncfNone
      · -- the message is taken for one about whole caches, without a flag
        subst hkey
        rw [ncfRecv_nothing flushList caches name hnew, flushed_nothing_iff]
        refine ⟨fun h _ => h.1, fun h => ⟨h rfl, fun k hk => ?_⟩⟩
        rw [← Option.some.inj hk, ncfRecv_nothing flushList caches name hold, flushed_nothing_iff]
        exact h rfl
      · refine ⟨fun _ heq => absurd (Option.some.inj heq) hkey,
          fun _ => ⟨ncfRecv_entry flushList caches name hkey hnew, fun k hk => ?_⟩⟩
        rw [← Option.some.inj hk]
        exact ncfRecv_entry flushList caches name hkey hold

/-- A request for the entry with the empty key leaves it there. -/
theorem empty_key_kept :
    ¬ Flushed (AList.insert [99] (AList.insert [] true ∅) ∅) (toCStr [99]) (some ncfNone)
      (ncfRecv [] (AList.insert [99] (AList.insert [] true ∅) ∅)
        (dciNcfSend (toCStr [99]) (some ncfNone))) := by
  intro h
  have hops := h.ops
  exact absurd hops (by decide)

end Nsdci.Flush
