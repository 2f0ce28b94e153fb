import Nsdci.Nrate
import Nsdci.Lib.Transition

/-!
# What a rating adds up to

`World.exact` adds the adjustments of both commands up as integers, each sum no less than zero. The
server has the same sums, whenever it flushes and evicts, exactly if no sum reaches 2^31, where an
`int` ends, and no adjustment of a request loses more than its 16 bits can tell (`Takes`). The two
commands do the same exactly for keys shorter than `NRATE_MAXNAME` and adjustments of 16 bits.
-/

namespace Nsdci.Nrate

open Lib Function

/-- The sums a key should have, as integers. -/
abbrev Sums := Int × Int

/-- Two adjustments are added, and clamped at zero. -/
def addClamped (sums : Sums) (countAdjust totalAdjust : Int) : Sums :=
  (max 0 (sums.1 + countAdjust), max 0 (sums.2 + totalAdjust))

/-- A server, what its keys should have, and whether all that was below 2^32 so far. -/
structure World where
  data : SData
  exact : Bytes → Sums
  bounded : Bool

/-- What can happen: one of the commands is called, the timer or `nrates.backup` flushes, and an
entry is evicted. -/
inductive Act where
  | add (argv : List CStr)
  | addRemote (argv : List CStr)
  | flush
  | evict (key : CStr)
  | delete (key : CStr)

/-- The exact sums after a command that took its arguments. -/
def World.sum (w : World) (data : SData) (args : Except AddError AddArgs) : World :=
  match args with
  | .error _ => { w with data := data }
  | .ok args =>
      let sums := addClamped (w.exact args.key) args.countAdjust args.totalAdjust
      { data := data
        exact := update w.exact args.key sums
        bounded := w.bounded && decide (sums.1 < 4294967296 ∧ sums.2 < 4294967296) }

/-- One step. -/
def World.act (tcl : Rpc.TclGetInt) (w : World) : Act → Option World
  | .add argv => some (w.sum (nratesAddCmd tcl w.data argv).1 (nratesAddArgs tcl argv))
  | .addRemote argv => some (w.sum (nratecAddCmd tcl w.data argv).1 (nratecAddArgs tcl argv))
  | .flush => some { w with data := nratesFlushRatings w.data }
  | .evict key => some { w with data := nratesFreeEntry w.data key.1 }
  | .delete key => some { w with
      data := nratesDeleteCmd w.data key
      exact := update w.exact key.1 (0, 0) }

/-- No key has a rating yet. -/
def World.empty : World := ⟨⟨fun _ => none, fun _ => none⟩, fun _ => (0, 0), true⟩

/-- The sums a key has. -/
def SData.sums (d : SData) (key : Bytes) : Sums := ((d.rating key).count, (d.rating key).total)

/-- Every key has the sums it should have, as long as they stayed below 2^32. -/
def World.Right (w : World) : Prop := w.bounded = true → ∀ key, w.data.sums key = w.exact key

/-- An adjustment of which the server uses `used` can be added to a value: it is used as it is and
the sum is an `int`, or it and what is used of it both leave nothing. -/
def Takes (value : Nat) (adjBy used : Int) : Prop :=
  (used = adjBy ∧ value + adjBy < 2 ^ 31) ∨
    (value + adjBy ≤ 0 ∧ (value + used ≤ 0 ∨ 2 ^ 31 ≤ value + used))

/-- Both adjustments of a command can be added to the rating of the key. -/
def AddArgs.Taken (d : SData) (narrow : Int → Int) (args : AddArgs) : Prop :=
  Takes (d.rating args.key).count args.countAdjust (narrow args.countAdjust) ∧
    Takes (d.rating args.key).total args.totalAdjust (narrow args.totalAdjust)

/-- A command that takes its arguments can add them. -/
def Safe (tcl : Rpc.TclGetInt) (w : World) : Act → Prop
  | .add argv => ∀ args, nratesAddArgs tcl argv = .ok args → args.Taken w.data id
  | .addRemote argv => ∀ args, nratecAddArgs tcl argv = .ok args → args.Taken w.data int16
  | .flush | .evict _ | .delete _ => True

/-- The two commands have the same effect for arguments that either accepts. -/
def SameEffect (tcl : Rpc.TclGetInt) (argv : List CStr) : Prop :=
  (∃ args, nratesAddArgs tcl argv = .ok args ∨ nratecAddArgs tcl argv = .ok args) →
    ∀ d, nratesAddCmd tcl d argv = nratecAddCmd tcl d argv

/-- Arguments that cross the network: a key shorter than `NRATE_MAXNAME`, and 16 bits. -/
def AddArgs.Narrow (args : AddArgs) : Prop :=
  args.key.length < maxName ∧ (-(2 ^ 15) ≤ args.countAdjust ∧ args.countAdjust < 2 ^ 15) ∧
    (-(2 ^ 15) ≤ args.totalAdjust ∧ args.totalAdjust < 2 ^ 15)

/-! ## One adjustment -/

/-- A sum past the end of an `int` is negative. -/
theorem int32_of_past {x : Int} (hlo : 2 ^ 31 ≤ x) (hhi : x < 2 ^ 32) : int32 x < 0 := by
  have hshift : int32 (x - 4294967296 + 4294967296) = int32 (x - 4294967296) :=
    Int.add_bmod_right _ _
  rw [Int.sub_add_cancel] at hshift
  rw [hshift, int32_of_range (by omega) (by omega)]
  omega

/-- What an adjustment leaves: nothing also when it goes past the end of an `int`. -/
theorem adjust_eq {value : Nat} {adjBy : Int} (hvalue : value < 2 ^ 31)
    (hlo : -(2 ^ 31) ≤ adjBy) (hhi : adjBy < 2 ^ 31) :
    (adjust value adjBy : Int) = if value + adjBy < 2 ^ 31 then max 0 (value + adjBy) else 0 := by
  have hstored : int32 (value : Int) = value := int32_of_range (by omega) (by omega)
  unfold adjust
  rw [hstored]
  by_cases hfits : value + adjBy < 2 ^ 31
  · rw [if_pos hfits, int32_of_range (by omega) hfits]
    dsimp only
    split <;> omega
  · have hpast := int32_of_past (x := value + adjBy) (by omega) (by omega)
    rw [if_neg hfits]
    dsimp only
    rw [if_pos hpast]
    rfl

/-- The value stays an `int`. -/
theorem adjust_lt (value : Nat) (adjBy : Int) : adjust value adjBy < 2 ^ 31 := by
  have hrange := int32_range (int32 value + adjBy)
  unfold adjust
  dsimp only
  split <;> omega

/-- So do both of a rating. -/
theorem Rating.adjust_lt (c t : Int) (rating : Rating) :
    (rating.adjust c t).count < 2 ^ 31 ∧ (rating.adjust c t).total < 2 ^ 31 := by
  dsimp only [Rating.adjust]
  exact ⟨Nrate.adjust_lt rating.count c, Nrate.adjust_lt rating.total t⟩

/-- **An adjustment gives the exact sum exactly if it can be added.** -/
theorem adjust_eq_iff {value : Nat} {adjBy used : Int} (hvalue : value < 2 ^ 31)
    (hlo : -(2 ^ 31) ≤ used) (hhi : used < 2 ^ 31) :
    (adjust value used : Int) = max 0 (value + adjBy) ↔ Takes value adjBy used := by
  rw [adjust_eq hvalue hlo hhi]
  unfold Takes
  split <;> omega

/-! ## One command -/

/-- The numbers of a command are `int`s. -/
theorem addArgs_range {limit : Nat} {tcl : Rpc.TclGetInt} {argv : List CStr} {args : AddArgs}
    (h : addArgs limit tcl argv = .ok args) :
    args.key.length < limit ∧ (-(2 ^ 31) ≤ args.countAdjust ∧ args.countAdjust < 2 ^ 31) ∧
      (-(2 ^ 31) ≤ args.totalAdjust ∧ args.totalAdjust < 2 ^ 31) := by
  unfold addArgs at h
  split at h
  next key count total precision =>
    split_ifs at h with hlimit
    split at h
    next nCountAdjust nTotalAdjust nPrecision hcount htotal _ =>
      obtain rfl := Except.ok.inj h
      obtain ⟨x, -, rfl⟩ := Option.map_eq_some_iff.mp hcount
      obtain ⟨y, -, rfl⟩ := Option.map_eq_some_iff.mp htotal
      exact ⟨Nat.lt_of_not_le hlimit, int32_range x, int32_range y⟩
    next => cases h
  next => cases h

/-- The ratings after `NratesAdd`. -/
theorem rating_nratesAdd (d : SData) (name : Bytes) (c t : Int) :
    (nratesAdd d name c t).1.rating =
      update d.rating name ((d.rating name).adjust c t) :=
  WriteBack.value_modify name (Rating.adjust c t)

/-- The rating `NratesAdd` gives back. -/
theorem nratesAdd_snd (d : SData) (name : Bytes) (c t : Int) :
    (nratesAdd d name c t).2 = (d.rating name).adjust c t := by
  show (nratesAdd d name c t).1.rating name = _
  rw [rating_nratesAdd, update_self]

/-- What `nrates.add` does. -/
theorem nratesAddCmd_ok {tcl : Rpc.TclGetInt} {argv : List CStr} {args : AddArgs} (d : SData)
    (h : nratesAddArgs tcl argv = .ok args) :
    nratesAddCmd tcl d argv =
      ((nratesAdd d args.key args.countAdjust args.totalAdjust).1,
        .ok ((d.rating args.key).adjust args.countAdjust args.totalAdjust, args.precision)) := by
  unfold nratesAddCmd
  rw [h]
  dsimp only
  rw [nratesAdd_snd]

/-- What `nratec.add` does: the same with 16 bits of the adjustments. -/
theorem nratecAddCmd_ok {tcl : Rpc.TclGetInt} {argv : List CStr} {args : AddArgs} (d : SData)
    (h : nratecAddArgs tcl argv = .ok args) :
    nratecAddCmd tcl d argv =
      ((nratesAdd d args.key (int16 args.countAdjust) (int16 args.totalAdjust)).1,
        .ok ((d.rating args.key).adjust (int16 args.countAdjust) (int16 args.totalAdjust),
          args.precision)) := by
  unfold nratecAddCmd nratesProc
  rw [h]
  dsimp only [AddArgs.msg]
  have hback : ∀ value adjBy, ofBe32 (be32 (adjust value adjBy : Nat)) = adjust value adjBy := by
    intro value adjBy
    have hlt := adjust_lt value adjBy
    exact ofBe32_be32_natCast (by omega)
  rw [int16_ofBe16_be16, int16_ofBe16_be16, nratesAdd_snd]
  dsimp only [Rating.adjust]
  rw [hback, hback]

/-! ## Runs -/

/-- What holds in every state of a safe run. -/
structure World.Sound (w : World) : Prop where
  coherent : w.data.Coherent
  small : ∀ key, (w.data.rating key).count < 2 ^ 31 ∧ (w.data.rating key).total < 2 ^ 31
  exact : ∀ key, w.data.sums key = w.exact key
  bounded : w.bounded = true

/-- The sums are right. -/
theorem World.Sound.right {w : World} (h : w.Sound) : w.Right := fun _ => h.exact

variable {tcl : Rpc.TclGetInt} {w : World}

/-- The sums of a key whose rating is known. -/
theorem sums_eq {d : SData} {key : Bytes} {rating : Rating} (h : d.rating key = rating) :
    d.sums key = ((rating.count : Int), (rating.total : Int)) := by
  rw [SData.sums, h]

/-- A step that changes no rating keeps the invariant. -/
theorem World.Sound.same (h : w.Sound) {d : SData} (hcoherent : d.Coherent)
    (hrating : d.rating = w.data.rating) : World.Sound { w with data := d } := by
  refine ⟨hcoherent, fun key => ?_, fun key => ?_, h.bounded⟩
  · show (d.rating key).count < _ ∧ (d.rating key).total < _
    rw [hrating]
    exact h.small key
  · show d.sums key = w.exact key
    rw [sums_eq (congrFun hrating key)]
    exact h.exact key

/-- The sums of the key of a command become the exact ones if both adjustments can be added. -/
theorem World.Sound.sums_iff (h : w.Sound) (args : AddArgs) {c t : Int}
    (hcount : -(2 ^ 31) ≤ c ∧ c < 2 ^ 31) (htotal : -(2 ^ 31) ≤ t ∧ t < 2 ^ 31) :
    (nratesAdd w.data args.key c t).1.sums args.key =
        addClamped (w.exact args.key) args.countAdjust args.totalAdjust ↔
      Takes (w.data.rating args.key).count args.countAdjust c ∧
        Takes (w.data.rating args.key).total args.totalAdjust t := by
  obtain ⟨hsmall, hsmall'⟩ := h.small args.key
  have hrating : (nratesAdd w.data args.key c t).1.rating args.key =
      (w.data.rating args.key).adjust c t := by rw [rating_nratesAdd, update_self]
  rw [sums_eq hrating, ← h.exact, sums_eq rfl, Prod.ext_iff,
    ← adjust_eq_iff hsmall hcount.1 hcount.2, ← adjust_eq_iff hsmall' htotal.1 htotal.2]
  dsimp only [addClamped, Rating.adjust]
  exact Iff.rfl

/-- The exact sums stay below 2^32 with one command. -/
theorem World.Sound.bound (h : w.Sound) (key : Bytes) {c t : Int} (hc : c < 2 ^ 31)
    (ht : t < 2 ^ 31) :
    (addClamped (w.exact key) c t).1 < 4294967296 ∧
      (addClamped (w.exact key) c t).2 < 4294967296 := by
  obtain ⟨hsmall, hsmall'⟩ := h.small key
  rw [← h.exact key, sums_eq rfl]
  show max 0 (((w.data.rating key).count : Int) + c) < _ ∧
    max 0 (((w.data.rating key).total : Int) + t) < _
  omega

/-- **A command leaves the sums right exactly if its adjustments can be added**, and then it keeps
the invariant. -/
theorem World.Sound.command (h : w.Sound) (tcl : Rpc.TclGetInt) (limit : Nat)
    (argv : List CStr) (narrow : Int → Int) (data : SData)
    (hnarrow : ∀ x, -(2 ^ 31) ≤ x ∧ x < 2 ^ 31 → -(2 ^ 31) ≤ narrow x ∧ narrow x < 2 ^ 31)
    (herror : ∀ err, addArgs limit tcl argv = .error err → data = w.data)
    (hok : ∀ args, addArgs limit tcl argv = .ok args → data =
      (nratesAdd w.data args.key (narrow args.countAdjust) (narrow args.totalAdjust)).1) :
    ((∀ args, addArgs limit tcl argv = .ok args → args.Taken w.data narrow) →
        (w.sum data (addArgs limit tcl argv)).Sound) ∧
      ((w.sum data (addArgs limit tcl argv)).Right →
        ∀ args, addArgs limit tcl argv = .ok args → args.Taken w.data narrow) := by
  cases hargs : addArgs limit tcl argv with
  | error err =>
      obtain rfl := herror err hargs
      exact ⟨fun _ => h, fun _ args hargs' => by cases hargs'⟩
  | ok args =>
      obtain rfl := hok args hargs
      obtain ⟨-, hcount, htotal⟩ := addArgs_range hargs
      have hiff := h.sums_iff args (hnarrow _ hcount) (hnarrow _ htotal)
      have hbounded : (w.bounded && decide ((addClamped (w.exact args.key) args.countAdjust
          args.totalAdjust).1 < 4294967296 ∧ (addClamped (w.exact args.key) args.countAdjust
          args.totalAdjust).2 < 4294967296)) = true := by
        rw [h.bounded, decide_eq_true (h.bound args.key hcount.2 htotal.2)]
        rfl
      constructor
      · intro hsafe
        have htaken := hsafe args rfl
        refine ⟨h.coherent.modify _ _, fun key => ?_, fun key => ?_, hbounded⟩
        · show ((nratesAdd _ _ _ _).1.rating key).count < _ ∧
            ((nratesAdd _ _ _ _).1.rating key).total < _
          rw [rating_nratesAdd]
          by_cases hkey : key = args.key
          · rw [hkey, update_self]
            exact Rating.adjust_lt _ _ _
          · rw [update_of_ne hkey]
            exact h.small key
        · show (nratesAdd _ _ _ _).1.sums key = update w.exact args.key _ key
          by_cases hkey : key = args.key
          · rw [hkey, update_self]
            exact hiff.mpr htaken
          · rw [update_of_ne hkey, SData.sums, rating_nratesAdd, update_of_ne hkey]
            exact h.exact key
      · intro hright args' hargs'
        obtain rfl := Except.ok.inj hargs'
        have hkey := hright hbounded args.key
        refine hiff.mp (hkey.trans ?_)
        show update w.exact args.key _ args.key = _
        rw [update_self]

/-- **A step leaves the sums right exactly if it is safe, and then it keeps the invariant.** -/
theorem World.Sound.act (h : w.Sound) (e : Act) :
    (Safe tcl w e → ∀ w' ∈ w.act tcl e, w'.Sound) ∧
      ((∀ w' ∈ w.act tcl e, w'.Right) → Safe tcl w e) := by
  cases e with
  | add argv =>
      have hcommand := h.command tcl maxName argv id (nratesAddCmd tcl w.data argv).1
        (fun _ hx => hx)
        (fun err herr => by rw [nratesAddCmd, nratesAddArgs, herr])
        (fun args hargs => by rw [nratesAddCmd_ok w.data hargs]; rfl)
      exact ⟨fun hsafe w' hw' => Option.some.inj hw' ▸ hcommand.1 hsafe,
        fun hright => hcommand.2 (hright _ rfl)⟩
  | addRemote argv =>
      have hnarrow : ∀ x : Int, -(2 ^ 31) ≤ x ∧ x < 2 ^ 31 →
          -(2 ^ 31) ≤ int16 x ∧ int16 x < 2 ^ 31 := by
        intro x _
        have hrange := int16_range x
        omega
      have hcommand := h.command tcl (maxName + 1) argv int16 (nratecAddCmd tcl w.data argv).1
        hnarrow
        (fun err herr => by rw [nratecAddCmd, nratecAddArgs, herr])
        (fun args hargs => by rw [nratecAddCmd_ok w.data hargs])
      exact ⟨fun hsafe w' hw' => Option.some.inj hw' ▸ hcommand.1 hsafe,
        fun hright => hcommand.2 (hright _ rfl)⟩
  | flush =>
      refine ⟨fun _ w' hw' => ?_, fun _ => trivial⟩
      exact Option.some.inj hw' ▸ h.same h.coherent.flush WriteBack.value_flush
  | evict key =>
      refine ⟨fun _ w' hw' => ?_, fun _ => trivial⟩
      exact Option.some.inj hw' ▸
        h.same (h.coherent.evict key.1) (WriteBack.value_evict h.coherent key.1)
  | delete key =>
      refine ⟨fun _ w' hw' => ?_, fun _ => trivial⟩
      obtain rfl := Option.some.inj hw'
      have hrating : SData.rating (nratesDeleteCmd w.data key) =
          update w.data.rating key.1 .zero := WriteBack.value_delete key.1
      refine ⟨h.coherent.delete key.1, fun k => ?_, fun k => ?_, h.bounded⟩
      · show ((nratesDeleteCmd w.data key).rating k).count < _ ∧
          ((nratesDeleteCmd w.data key).rating k).total < _
        rw [hrating]
        by_cases hk : k = key.1
        · rw [hk, update_self]
          exact ⟨by decide, by decide⟩
        · rw [update_of_ne hk]
          exact h.small k
      · show (nratesDeleteCmd w.data key).sums k = update w.exact key.1 (0, 0) k
        rw [SData.sums, hrating]
        by_cases hk : k = key.1
        · rw [hk, update_self, update_self]
          rfl
        · rw [update_of_ne hk, update_of_ne hk]
          exact h.exact k

/-- Nothing has been added. -/
theorem sound_empty : World.empty.Sound :=
  ⟨fun _ _ hcache => absurd hcache (by simp [World.empty]),
    fun _ => ⟨Nat.two_pow_pos 31, Nat.two_pow_pos 31⟩, fun _ => rfl, rfl⟩

/-! ## The two commands -/

/-- A lower limit on keys leaves all else as it is. -/
theorem addArgs_iff {limit limit' : Nat} (hle : limit ≤ limit') {argv : List CStr}
    {args : AddArgs} :
    addArgs limit tcl argv = .ok args ↔
      addArgs limit' tcl argv = .ok args ∧ args.key.length < limit := by
  constructor
  · intro h
    refine ⟨?_, (addArgs_range h).1⟩
    unfold addArgs at h ⊢
    split at h
    next key count total precision =>
      split_ifs at h with hlimit
      have hlimit' : ¬ limit' ≤ key.1.length := by omega
      rw [if_neg hlimit']
      exact h
    next => cases h
  · intro ⟨h, hlt⟩
    unfold addArgs at h ⊢
    split at h
    next key count total precision =>
      split_ifs at h with hlimit'
      have hkey : args.key = key.1 := by
        split at h
        next => exact (Except.ok.inj h) ▸ rfl
        next => cases h
      have hlimit : ¬ limit ≤ key.1.length := by
        rw [← hkey]
        omega
      rw [if_neg hlimit]
      exact h
    next => cases h

/-- With a rating of 32769 an adjustment and its 16 bits can be told apart. -/
theorem int16_of_adjust_eq {x : Int} (hlo : -(2 ^ 31) ≤ x) (hhi : x < 2 ^ 31)
    (h : adjust 32769 x = adjust 32769 (int16 x)) : int16 x = x := by
  have hrange := int16_range x
  have hleft := adjust_eq (show 32769 < 2 ^ 31 by norm_num) hlo hhi
  have hright : (adjust 32769 (int16 x) : Int) = _ :=
    adjust_eq (show 32769 < 2 ^ 31 by norm_num) (by omega) (by omega)
  rw [h, hright] at hleft
  rw [if_pos (by omega)] at hleft
  split at hleft <;> omega

/-- **The two commands have the same effect exactly for arguments that cross the network.** -/
theorem same_effect_iff (tcl : Rpc.TclGetInt) (argv : List CStr) :
    SameEffect tcl argv ↔ ∀ args, nratecAddArgs tcl argv = .ok args → args.Narrow := by
  have hlocal : ∀ {args}, nratesAddArgs tcl argv = .ok args ↔
      nratecAddArgs tcl argv = .ok args ∧ args.key.length < maxName :=
    addArgs_iff (Nat.le_succ maxName)
  constructor
  · intro hsame args hargs
    obtain ⟨-, hcount, htotal⟩ := addArgs_range hargs
    have hsame' := hsame ⟨args, Or.inr hargs⟩
    -- a rating that tells the adjustments apart
    have hprobe := hsame' ⟨fun _ => none, fun _ => some ⟨32769, 32769⟩⟩
    rw [nratecAddCmd_ok _ hargs] at hprobe
    by_cases hkey : args.key.length < maxName
    · rw [nratesAddCmd_ok _ (hlocal.mpr ⟨hargs, hkey⟩)] at hprobe
      have hrating := (Prod.ext_iff.mp (Except.ok.inj (Prod.ext_iff.mp hprobe).2)).1
      obtain ⟨hcount', htotal'⟩ := Rating.mk.inj hrating
      exact ⟨hkey, int16_eq_iff.mp (int16_of_adjust_eq hcount.1 hcount.2 hcount'),
        int16_eq_iff.mp (int16_of_adjust_eq htotal.1 htotal.2 htotal')⟩
    · cases hargs' : nratesAddArgs tcl argv with
      | ok args' =>
          obtain ⟨hargs'', hlt⟩ := hlocal.mp hargs'
          obtain rfl := Except.ok.inj (hargs.symm.trans hargs'')
          exact absurd hlt hkey
      | error err =>
          rw [nratesAddCmd, hargs'] at hprobe
          cases (Prod.ext_iff.mp hprobe).2
  · intro hnarrow haccepted d
    have hremote : ∃ args, nratecAddArgs tcl argv = .ok args := by
      obtain ⟨args, hargs | hargs⟩ := haccepted
      · exact ⟨args, (hlocal.mp hargs).1⟩
      · exact ⟨args, hargs⟩
    obtain ⟨args, hargs⟩ := hremote
    obtain ⟨hkey, hcount, htotal⟩ := hnarrow args hargs
    rw [nratecAddCmd_ok d hargs, nratesAddCmd_ok d (hlocal.mpr ⟨hargs, hkey⟩),
      int16_eq_iff.mpr hcount, int16_eq_iff.mpr htotal]

/-- **The sums of all keys are right in every state of a run exactly if every command can add its
adjustments, and the two commands have the same effect exactly for keys shorter than `NRATE_MAXNAME`
and adjustments of 16 bits.** -/
theorem ratings_right_iff (tcl : Rpc.TclGetInt) :
    (∀ es, (∀ pre, pre <+: es → ∀ w, run (World.act tcl) World.empty pre = some w → w.Right) ↔
      Along (World.act tcl) (Safe tcl) World.empty es) ∧
    ∀ argv, SameEffect tcl argv ↔ ∀ args, nratecAddArgs tcl argv = .ok args → args.Narrow := by
  refine ⟨fun es => ?_, same_effect_iff tcl⟩
  rw [reached_iff_along es sound_empty.right]
  symm
  refine along_congr (fun w e h => ?_) (fun w e w' h hsafe hw' => (h.act e).1 hsafe w' hw') es
    sound_empty
  exact ⟨fun hsafe w' hw' => ((h.act e).1 hsafe w' hw').right, (h.act e).2⟩

/-- A key, and the arguments of a command. -/
def argsOf (key count total : String) : List CStr :=
  [ascii "nrates.add", ascii key, ascii count, ascii total, ascii "2"].map toCStr

/-- 2^31, which is below 2^32, becomes zero, an adjustment of 40000 from afar takes away, and a key
of 32 characters is taken from afar only. -/
theorem rating_lost :
    (∃ w, run (World.act .decimal) World.empty
        [.add (argsOf "k" "1" "2147483647"), .add (argsOf "k" "1" "1")] = some w ∧
      w.data.sums (ascii "k") = (2, 0) ∧ w.exact (ascii "k") = (2, 2147483648) ∧ ¬ w.Right) ∧
    (∃ w, run (World.act .decimal) World.empty [.addRemote (argsOf "k" "1" "40000")] = some w ∧
      w.data.sums (ascii "k") = (1, 0) ∧ w.exact (ascii "k") = (1, 40000) ∧ ¬ w.Right) ∧
    ¬ SameEffect .decimal (argsOf "abcdefghijklmnopqrstuvwxyz012345" "1" "1") := by
  refine ⟨⟨_, rfl, ?_, ?_, fun h => ?_⟩, ⟨_, rfl, ?_, ?_, fun h => ?_⟩, ?_⟩
  · decide +kernel
  · decide +kernel
  · exact absurd (h (by decide +kernel) (ascii "k")) (by decide +kernel)
  · decide +kernel
  · decide +kernel
  · exact absurd (h (by decide +kernel) (ascii "k")) (by decide +kernel)
  · intro hsame
    have hnarrow := (same_effect_iff _ _).mp hsame
      ⟨ascii "abcdefghijklmnopqrstuvwxyz012345", 1, 1, 2⟩ (by decide +kernel)
    exact absurd hnarrow.1 (by decide +kernel)

end Nsdci.Nrate
