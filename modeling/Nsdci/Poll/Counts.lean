import Nsdci.Poll
import Nsdci.Lib.Transition

/-!
# What a poll counts

`World.exact` adds the votes of all commands up as integers, each sum no less than zero. The server
has the same counts, whenever it flushes and evicts, and touches no count but the one voted for,
exactly if every vote of a request is for the choice it was made for and takes no more than its 16
bits can tell (`Safe`). The local and the remote commands do the same exactly for such votes on
names shorter than `POLL_MAXNAME`.
-/

namespace Nsdci.Poll

open Lib Function

/-- The commands that vote. -/
inductive Cmd where
  | nps | nps2 | npc | npc2
  deriving DecidableEq

/-- The checks of a command. -/
def Cmd.args (tcl : Rpc.TclGetInt) : Cmd → List CStr → Except VoteError VoteArgs
  | .nps => npsVoteArgs tcl
  | .nps2 => nps2VoteArgs tcl
  | .npc => npcVoteArgs tcl
  | .npc2 => npc2VoteArgs tcl

/-- A command is called. -/
def Cmd.call (tcl : Rpc.TclGetInt) : Cmd → SData → List CStr → Voted
  | .nps => npsVoteCmd tcl
  | .nps2 => nps2VoteCmd tcl
  | .npc => npcVoteCmd tcl
  | .npc2 => npc2VoteCmd tcl

/-- The choice and the adjustment that the server uses. -/
def Cmd.used : Cmd → VoteArgs → Int × Int
  | .nps, args => (args.choice, 1)
  | .nps2, args => (args.choice, args.adjVoteBy)
  | .npc, args => (args.choice % 65536, 1)
  | .npc2, args => (args.choice % 65536, int16 args.adjVoteBy)

/-- A vote is for a choice of a poll. -/
def VoteArgs.For (args : VoteArgs) (poll : Bytes) (c : Choice) : Prop :=
  args.poll = poll ∧ inRange args.choice = some c

instance (args : VoteArgs) (poll : Bytes) (c : Choice) : Decidable (args.For poll c) :=
  inferInstanceAs (Decidable (_ ∧ _))

/-- A server, what its polls should have, and which counts were below 2^32 since the poll was last
deleted. -/
structure World where
  data : SData
  exact : Bytes → Choice → Int
  bounded : Bytes → Choice → Bool

/-- What can happen: one of the commands is called, the timer or `nps.backup` flushes, an entry is
evicted, and a poll is deleted. -/
inductive Act where
  | vote (cmd : Cmd) (argv : List CStr)
  | flush
  | evict (poll : CStr)
  | delete (poll : CStr)

/-- The exact count after a vote. -/
def World.sum (w : World) (args : VoteArgs) (poll : Bytes) (c : Choice) : Int :=
  if args.For poll c then max 0 (w.exact poll c + args.adjVoteBy) else w.exact poll c

/-- A command that takes its arguments votes. -/
def World.vote (w : World) (data : SData) (args : Except VoteError VoteArgs) : World :=
  match args with
  | .error _ => { w with data := data }
  | .ok args =>
      { data := data
        exact := w.sum args
        bounded := fun poll c => w.bounded poll c && decide (w.sum args poll c < 2 ^ 32) }

/-- One step. -/
def World.act (tcl : Rpc.TclGetInt) (w : World) : Act → Option World
  | .vote cmd argv => some (w.vote (cmd.call tcl w.data argv).1 (cmd.args tcl argv))
  | .flush => some { w with data := npsFlushVotes w.data }
  | .evict poll => some { w with data := npsFreeEntry w.data poll.1 }
  | .delete poll => some
      { data := npsDeleteCmd w.data poll
        exact := update w.exact poll.1 fun _ => 0
        bounded := update w.bounded poll.1 fun _ => true }

/-- No poll has a vote yet. -/
def World.empty : World := ⟨⟨fun _ => none, fun _ => none⟩, fun _ _ => 0, fun _ _ => true⟩

/-- Every choice has the count it should have, as long as it stayed below 2^32. -/
def World.Right (w : World) : Prop :=
  ∀ poll c, w.bounded poll c = true → ((w.data.votes poll c).toNat : Int) = w.exact poll c

/-- What a step is for: the choice voted for, or all choices of a poll that is deleted. -/
def Act.For (tcl : Rpc.TclGetInt) : Act → Bytes → Choice → Prop
  | .vote cmd argv, poll, c => ∃ args, cmd.args tcl argv = .ok args ∧ args.For poll c
  | .flush, _, _ | .evict _, _, _ => False
  | .delete name, poll, _ => poll = name.1

/-- A step leaves the counts right, and touches no other count. -/
def Fine (tcl : Rpc.TclGetInt) (w : World) (e : Act) : Prop :=
  ∀ w' ∈ w.act tcl e, w'.Right ∧
    ∀ poll c, ¬ e.For tcl poll c → w'.data.votes poll c = w.data.votes poll c

/-- An adjustment of which the server uses `used`: it is used as it is, or both leave nothing. -/
def Counts (value : Nat) (adjVoteBy used : Int) : Prop :=
  used = adjVoteBy ∨ value + adjVoteBy ≤ 0 ∧ value + used ≤ 0

/-- A vote that the server counts for a choice counts as it should: for the choice it was made for
with its adjustment, unless the count was or comes to 2^32, and for another choice not at all. -/
def VoteArgs.Counted (args : VoteArgs) (w : World) (used : Int) (c : Choice) : Prop :=
  let value := (w.data.votes args.poll c).toNat
  if inRange args.choice = some c then
    w.bounded args.poll c = true → value + args.adjVoteBy < 2 ^ 32 →
      Counts value args.adjVoteBy used
  else Counts value 0 used

/-- A command that takes its arguments counts them. -/
def Safe (tcl : Rpc.TclGetInt) (w : World) : Act → Prop
  | .vote cmd argv => ∀ args, cmd.args tcl argv = .ok args →
      ∀ c, inRange (cmd.used args).1 = some c → args.Counted w (cmd.used args).2 c
  | .flush | .evict _ | .delete _ => True

/-- Two commands have the same effect on the counts, and the same result, for arguments that either
accepts. -/
def SameEffect (tcl : Rpc.TclGetInt) (here there : Cmd) (argv : List CStr) : Prop :=
  (∃ args, here.args tcl argv = .ok args ∨ there.args tcl argv = .ok args) →
    ∀ d : SData, (here.call tcl d argv).1.votes = (there.call tcl d argv).1.votes ∧
      (here.call tcl d argv).2 = (there.call tcl d argv).2

/-- Arguments that cross the network: a name shorter than `POLL_MAXNAME`, and what is counted is the
adjustment for the choice, and nothing for another one. -/
def VoteArgs.Narrow (args : VoteArgs) (used : Int × Int) : Prop :=
  args.poll.length < maxName ∧ ∀ c, inRange used.1 = some c →
    used.2 = if inRange args.choice = some c then args.adjVoteBy else 0

/-! ## One adjustment -/

/-- Only a number that is in range stands for a choice. -/
theorem inRange_eq_some {choice : Int} {c : Choice} : inRange choice = some c ↔ choice = c.1 := by
  unfold inRange
  constructor
  · intro h
    split_ifs at h with hrange
    rw [← Option.some.inj h]
    exact (Int.toNat_of_nonneg hrange.1).symm
  · rintro rfl
    have hrange : (0 : Int) ≤ c.1 ∧ (c.1 : Int) < 20 := by omega
    rw [dif_pos hrange]
    rfl

/-- A choice in range is the one the server uses. -/
theorem Cmd.inRange_used (cmd : Cmd) {args : VoteArgs} {c : Choice}
    (h : inRange args.choice = some c) : inRange (cmd.used args).1 = some c := by
  have hchoice := inRange_eq_some.mp h
  have hmod : args.choice % 65536 = args.choice := by omega
  cases cmd with
  | nps | nps2 => exact h
  | npc | npc2 => exact (congrArg inRange hmod).trans h

/-- A count as an integer, after an adjustment. -/
theorem toNat_adjust (adjVoteBy : Int) (n : UInt32) :
    ((adjust adjVoteBy n).toNat : Int) =
      if n.toNat + adjVoteBy < 0 then 0 else (n.toNat + adjVoteBy) % 4294967296 := by
  have hlt : n.toNat < 4294967296 := n.toNat_lt
  unfold adjust
  by_cases hneg : adjVoteBy < 0 ∧ adjVoteBy.natAbs > n.toNat
  · rw [if_pos hneg, if_pos (by omega)]
    rfl
  · rw [if_neg hneg, if_neg (by omega)]
    have hadd : (n + UInt32.ofInt adjVoteBy).toNat =
        (n.toNat + (adjVoteBy % 4294967296).toNat % 4294967296) % 4294967296 := by
      rw [UInt32.toNat_add]
      rfl
    rw [hadd]
    omega

/-- One vote is an adjustment by one. -/
theorem npsVote_eq (d : SData) (board : Bytes) (choice : Int) :
    npsVote d board choice = nps2Vote d board choice 1 := by
  have hone : adjust 1 = fun n => n + 1 := by
    funext n
    rfl
  rw [nps2Vote, hone]
  rfl

/-- **An adjustment gives the exact sum, below 2^32, exactly if it counts.** -/
theorem adjust_eq_iff {n : UInt32} {adjVoteBy used : Int}
    (hadj : -(2 ^ 31) ≤ adjVoteBy ∧ adjVoteBy < 2 ^ 31) (hused : -(2 ^ 31) ≤ used ∧ used < 2 ^ 31)
    (hsum : n.toNat + adjVoteBy < 2 ^ 32) :
    ((adjust used n).toNat : Int) = max 0 (n.toNat + adjVoteBy) ↔
      Counts n.toNat adjVoteBy used := by
  have hlt : n.toNat < 4294967296 := n.toNat_lt
  rw [toNat_adjust]
  unfold Counts
  split <;> omega

/-- An adjustment leaves a count as it is exactly if it counts as none. -/
theorem adjust_eq_self_iff {n : UInt32} {used : Int} (hused : -(2 ^ 31) ≤ used ∧ used < 2 ^ 31) :
    adjust used n = n ↔ Counts n.toNat 0 used := by
  have hlt : n.toNat < 4294967296 := n.toNat_lt
  rw [← adjust_eq_iff ⟨by decide, by decide⟩ hused (by omega), ← UInt32.toNat_inj]
  omega

/-! ## One command -/

/-- A vote for a choice in range. -/
theorem vote_of_some {count : UInt32 → UInt32} {d : SData} {board : Bytes} {choice : Int}
    {c : Choice} (h : inRange choice = some c) : (vote count d board choice).1 =
      d.modify .zero board fun votes => update votes c (count (votes c)) := by
  unfold vote
  rw [h]

/-- A vote for a choice out of range. -/
theorem vote_of_none {count : UInt32 → UInt32} {d : SData} {board : Bytes} {choice : Int}
    (h : inRange choice = none) : (vote count d board choice).1 = d.load .zero board := by
  unfold vote
  rw [h]

/-- What a vote leaves of the counts. -/
theorem votes_vote (count : UInt32 → UInt32) (d : SData) (board : Bytes) (choice : Int)
    (poll : Bytes) (c : Choice) : (vote count d board choice).1.votes poll c =
      if board = poll ∧ inRange choice = some c then count (d.votes poll c)
      else d.votes poll c := by
  cases hchoice : inRange choice with
  | none =>
      rw [vote_of_none hchoice, if_neg fun h => nomatch h.2]
      exact congrFun (congrFun (WriteBack.value_load board) poll) c
  | some c' =>
      have hvalue : (vote count d board choice).1.votes = _ :=
        (congrArg SData.votes (vote_of_some hchoice)).trans (WriteBack.value_modify board _)
      rw [hvalue]
      by_cases hpoll : poll = board
      · subst hpoll
        rw [update_self]
        by_cases hc : c = c'
        · rw [hc, update_self, if_pos ⟨rfl, rfl⟩]
          rfl
        · rw [update_of_ne hc, if_neg fun h => hc (Option.some.inj h.2).symm]
          rfl
      · rw [update_of_ne hpoll, if_neg fun h => hpoll h.1.symm]
        rfl

/-- A vote keeps the cache in agreement with the file. -/
theorem agrees_vote {d : SData} (h : d.Agrees .zero) (count : UInt32 → UInt32) (board : Bytes)
    (choice : Int) : (vote count d board choice).1.Agrees .zero := by
  cases hchoice : inRange choice with
  | some c =>
      rw [vote_of_some hchoice]
      exact h.modify board _
  | none =>
      rw [vote_of_none hchoice]
      exact h.load board

/-- A reply brings the votes back. -/
theorem ofReply_reply (r : SData × Votes) : ofReply (reply r) = r := by
  obtain ⟨d, votes⟩ := r
  refine Prod.ext_iff.mpr ⟨rfl, funext fun c => ?_⟩
  have hlt : (votes c).toNat < 2 ^ 32 := (votes c).toNat_lt
  show UInt32.ofNat (ofBe32 (be32 (votes c).toNat)) = votes c
  rw [ofBe32_be32_natCast hlt, UInt32.ofNat_toNat]

variable {tcl : Rpc.TclGetInt}

/-- **What a command does**: all of them adjust a count on the server. -/
theorem Cmd.call_eq (cmd : Cmd) (d : SData) (argv : List CStr) :
    cmd.call tcl d argv = voteCmd d (cmd.args tcl argv) fun args =>
      nps2Vote d args.poll (cmd.used args).1 (cmd.used args).2 := by
  cases cmd with
  | nps =>
      refine congrArg (voteCmd d (npsVoteArgs tcl argv)) (funext fun args => ?_)
      exact npsVote_eq d args.poll args.choice
  | nps2 => rfl
  | npc =>
      refine congrArg (voteCmd d (npcVoteArgs tcl argv)) (funext fun args => ?_)
      dsimp only [npsProc, VoteArgs.msg]
      rw [ofReply_reply, npsVote_eq, ofBe16_be16]
      rfl
  | npc2 =>
      refine congrArg (voteCmd d (npc2VoteArgs tcl argv)) (funext fun args => ?_)
      dsimp only [nps2Proc, VoteArgs.msg2]
      rw [ofReply_reply, ofBe16_be16, int16_ofBe16_be16]
      rfl

/-- The adjustment that is used is an `int`. -/
theorem Cmd.used_range (cmd : Cmd) (args : VoteArgs) :
    -(2 ^ 31) ≤ (cmd.used args).2 ∧ (cmd.used args).2 < 2 ^ 31 := by
  have hrange := int16_range args.adjVoteBy
  cases cmd with
  | nps | npc =>
      show -(2 ^ 31) ≤ (1 : Int) ∧ (1 : Int) < 2 ^ 31
      omega
  | nps2 => exact args.adjVoteBy_range
  | npc2 =>
      show -(2 ^ 31) ≤ int16 args.adjVoteBy ∧ int16 args.adjVoteBy < 2 ^ 31
      omega

/-! ## Runs -/

/-- What holds in every state of a safe run. -/
structure World.Sound (w : World) : Prop where
  agrees : w.data.Agrees .zero
  right : w.Right

variable {w : World}

/-- **A vote leaves a count right, and as it is if it is for another one, exactly if what the server
counts there counts as it should.** -/
theorem World.Right.count_iff (h : w.Right) (cmd : Cmd) (args : VoteArgs) (poll : Bytes)
    (c : Choice) {votes : Bytes → Votes}
    (hvotes : votes = (nps2Vote w.data args.poll (cmd.used args).1 (cmd.used args).2).1.votes) :
    ((w.bounded poll c && decide (w.sum args poll c < 2 ^ 32)) = true →
          ((votes poll c).toNat : Int) = w.sum args poll c) ∧
        (¬ args.For poll c → votes poll c = w.data.votes poll c) ↔
      (args.poll = poll → inRange (cmd.used args).1 = some c →
        args.Counted w (cmd.used args).2 c) := by
  have hvote := votes_vote (adjust (cmd.used args).2) w.data args.poll (cmd.used args).1 poll c
  have hused := cmd.used_range args
  change (nps2Vote _ _ _ _).1.votes poll c = _ at hvote
  rw [← hvotes] at hvote
  have hbounded : (w.bounded poll c && decide (w.sum args poll c < 2 ^ 32)) = true ↔
      w.bounded poll c = true ∧ w.sum args poll c < 2 ^ 32 := by
    rw [Bool.and_eq_true, decide_eq_true_iff]
  rw [hbounded, hvote]
  by_cases hhit : args.poll = poll ∧ inRange (cmd.used args).1 = some c
  · obtain ⟨rfl, hhit⟩ := hhit
    rw [if_pos ⟨rfl, hhit⟩]
    unfold VoteArgs.Counted World.sum
    by_cases hfor : inRange args.choice = some c
    · -- the choice the vote is for
      rw [if_pos ⟨rfl, hfor⟩, if_pos hfor]
      have hsum : w.bounded args.poll c = true →
          (max 0 (w.exact args.poll c + args.adjVoteBy) < 2 ^ 32 ↔
            (w.data.votes args.poll c).toNat + args.adjVoteBy < 2 ^ 32) := by
        intro hbounded
        rw [h args.poll c hbounded]
        omega
      constructor
      · intro ⟨hright, _⟩ _ _ hbounded hlt
        have hright' := hright ⟨hbounded, (hsum hbounded).mpr hlt⟩
        rw [← h args.poll c hbounded] at hright'
        exact (adjust_eq_iff args.adjVoteBy_range hused hlt).mp hright'
      · intro hcounts
        refine ⟨fun ⟨hbounded, hlt⟩ => ?_, fun hnot => absurd ⟨rfl, hfor⟩ hnot⟩
        have hlt' := (hsum hbounded).mp hlt
        rw [← h args.poll c hbounded]
        exact (adjust_eq_iff args.adjVoteBy_range hused hlt').mpr
          (hcounts rfl hhit hbounded hlt')
    · -- another choice
      have hnot : ¬ args.For args.poll c := fun hfor' => hfor hfor'.2
      rw [if_neg hnot, if_neg hfor]
      constructor
      · exact fun hright _ _ => (adjust_eq_self_iff hused).mp (hright.2 hnot)
      · intro hcounts
        have hself := (adjust_eq_self_iff hused).mpr (hcounts rfl hhit)
        exact ⟨fun ⟨hbounded, _⟩ => hself.symm ▸ h args.poll c hbounded, fun _ => hself⟩
  · have hnot : ¬ args.For poll c := fun hfor => hhit ⟨hfor.1, cmd.inRange_used hfor.2⟩
    rw [if_neg hhit, World.sum, if_neg hnot]
    refine ⟨fun _ hpoll hused' => absurd ⟨hpoll, hused'⟩ hhit, fun _ => ?_⟩
    exact ⟨fun ⟨hbounded, _⟩ => h poll c hbounded, fun _ => rfl⟩

/-- **A command leaves the counts right, and touches no other one, exactly if it counts its
arguments**, and then it keeps the invariant. -/
theorem World.Sound.command (h : w.Sound) (cmd : Cmd) (argv : List CStr) :
    (Fine tcl w (.vote cmd argv) ↔ Safe tcl w (.vote cmd argv)) ∧
      (Safe tcl w (.vote cmd argv) → ∀ w' ∈ w.act tcl (.vote cmd argv), w'.Sound) := by
  have hact : w.act tcl (.vote cmd argv) =
      some (w.vote (cmd.call tcl w.data argv).1 (cmd.args tcl argv)) := rfl
  have hcall : cmd.call tcl w.data argv = _ := cmd.call_eq w.data argv
  cases hargs : cmd.args tcl argv with
  | error err =>
      rw [hargs] at hcall hact
      rw [hcall] at hact
      have hsame : ∀ w' ∈ w.act tcl (.vote cmd argv), w' = w :=
        fun w' hw' => (Option.some.inj (hact.symm.trans hw')).symm
      have hsafe : Safe tcl w (.vote cmd argv) := fun args hok => nomatch hargs.symm.trans hok
      refine ⟨iff_of_true (fun w' hw' => ?_) hsafe, fun _ w' hw' => (hsame w' hw').symm ▸ h⟩
      rw [hsame w' hw']
      exact ⟨h.right, fun _ _ _ => rfl⟩
  | ok args =>
      rw [hargs] at hcall hact
      rw [hcall] at hact
      have hcount := fun poll c => h.right.count_iff cmd args poll c rfl
      have hfor : ∀ poll c, Act.For tcl (.vote cmd argv) poll c ↔ args.For poll c := by
        intro poll c
        refine ⟨fun ⟨args', hargs', hfor⟩ => ?_, fun hfor => ⟨args, hargs, hfor⟩⟩
        exact Except.ok.inj (hargs.symm.trans hargs') ▸ hfor
      have hsafe : Safe tcl w (.vote cmd argv) ↔ ∀ poll c, args.poll = poll →
          inRange (cmd.used args).1 = some c → args.Counted w (cmd.used args).2 c := by
        refine ⟨fun hall poll c _ => hall args hargs c, fun hall args' hargs' c => ?_⟩
        obtain rfl := Except.ok.inj (hargs.symm.trans hargs')
        exact hall args.poll c rfl
      refine ⟨?_, fun hall w' hw' => ?_⟩
      · rw [hsafe]
        constructor
        · intro hfine poll c
          obtain ⟨hright, hframe⟩ := hfine _ hact
          refine (hcount poll c).mp ⟨hright poll c, fun hnot => hframe poll c fun hfor' => ?_⟩
          exact hnot ((hfor poll c).mp hfor')
        · intro hall w' hw'
          rw [← Option.some.inj (hact.symm.trans hw')]
          refine ⟨fun poll c => ((hcount poll c).mpr (hall poll c)).1, fun poll c hnot => ?_⟩
          exact ((hcount poll c).mpr (hall poll c)).2 fun hfor' => hnot ((hfor poll c).mpr hfor')
      · rw [← Option.some.inj (hact.symm.trans hw')]
        have hall := hsafe.mp hall
        exact ⟨agrees_vote h.agrees _ _ _,
          fun poll c => ((hcount poll c).mpr (hall poll c)).1⟩

/-- A step that changes no count keeps the invariant. -/
theorem World.Sound.same (h : w.Sound) {d : SData} (hagrees : d.Agrees .zero)
    (hvotes : d.votes = w.data.votes) : World.Sound { w with data := d } := by
  refine ⟨hagrees, fun poll c hbounded => ?_⟩
  show ((d.votes poll c).toNat : Int) = w.exact poll c
  rw [hvotes]
  exact h.right poll c hbounded

/-- **A step is fine exactly if it is safe, and then it keeps the invariant.** -/
theorem World.Sound.act (h : w.Sound) (e : Act) :
    (Fine tcl w e ↔ Safe tcl w e) ∧ (Safe tcl w e → ∀ w' ∈ w.act tcl e, w'.Sound) := by
  -- the steps that are always safe
  have halways : ∀ w', w.act tcl e = some w' → Safe tcl w e → w'.Sound →
      (∀ poll c, ¬ e.For tcl poll c → w'.data.votes poll c = w.data.votes poll c) →
      (Fine tcl w e ↔ Safe tcl w e) ∧ (Safe tcl w e → ∀ w' ∈ w.act tcl e, w'.Sound) := by
    intro w' hw' hsafe hsound hframe
    refine ⟨iff_of_true (fun w'' hw'' => ?_) hsafe, fun _ w'' hw'' => ?_⟩
    · obtain rfl : w' = w'' := Option.some.inj (hw'.symm.trans hw'')
      exact ⟨hsound.right, hframe⟩
    · obtain rfl : w' = w'' := Option.some.inj (hw'.symm.trans hw'')
      exact hsound
  cases e with
  | vote cmd argv => exact h.command cmd argv
  | flush =>
      have hvotes : SData.votes (npsFlushVotes w.data) = w.data.votes := WriteBack.value_flush
      exact halways _ rfl trivial (h.same h.agrees.flush hvotes)
        fun poll c _ => congrFun (congrFun hvotes poll) c
  | evict name =>
      have hvotes : SData.votes (npsFreeEntry w.data name.1) = w.data.votes :=
        WriteBack.value_evict_of_agrees h.agrees name.1
      exact halways _ rfl trivial (h.same (h.agrees.evict name.1) hvotes)
        fun poll c _ => congrFun (congrFun hvotes poll) c
  | delete name =>
      have hvotes : SData.votes (npsDeleteCmd w.data name) =
          update w.data.votes name.1 .zero := WriteBack.value_delete name.1
      refine halways _ rfl trivial ⟨h.agrees.delete name.1, fun poll c hbounded => ?_⟩ ?_
      · show ((SData.votes (npsDeleteCmd w.data name) poll c).toNat : Int) =
          update w.exact name.1 (fun _ => 0) poll c
        rw [hvotes]
        by_cases hpoll : poll = name.1
        · rw [hpoll, update_self, update_self]
          rfl
        · rw [update_of_ne hpoll, update_of_ne hpoll]
          refine h.right poll c ?_
          change update w.bounded name.1 (fun _ => true) poll c = true at hbounded
          rw [update_of_ne hpoll] at hbounded
          exact hbounded
      · intro poll c hnot
        show SData.votes (npsDeleteCmd w.data name) poll c = w.data.votes poll c
        rw [hvotes, update_of_ne hnot]

/-- Nothing has been counted. -/
theorem sound_empty : World.empty.Sound :=
  ⟨fun _ _ hcache => (nomatch hcache), fun _ _ _ => rfl⟩

/-! ## The commands here and there -/

/-- Checks one after the other. -/
theorem bind_eq_ok {α : Type} {x : Except VoteError α} {f : α → Except VoteError VoteArgs}
    {args : VoteArgs} : (x >>= f) = .ok args ↔ ∃ a, x = .ok a ∧ f a = .ok args := by
  cases x with
  | error err => exact iff_of_false (fun h => nomatch h) fun ⟨_, h, _⟩ => nomatch h
  | ok a => exact ⟨fun h => ⟨a, rfl, h⟩, fun ⟨_, ha, h⟩ => Except.ok.inj ha ▸ h⟩

/-- The check of a name. -/
theorem checkPoll_eq_ok {limit : Nat} {poll : CStr} {u : Unit} :
    checkPoll limit poll = .ok u ↔ poll.1.length < limit := by
  unfold checkPoll
  split_ifs with hlimit
  · exact iff_of_false (fun h => nomatch h) (by omega)
  · exact iff_of_true rfl (by omega)

/-- With a count of 32769 an adjustment and its 16 bits can be told apart. -/
theorem eq_of_adjust_eq {adjVoteBy used : Int} (hadj : -(2 ^ 31) ≤ adjVoteBy ∧ adjVoteBy < 2 ^ 31)
    (hused : -(2 ^ 15) ≤ used ∧ used < 2 ^ 15) (h : adjust adjVoteBy 32769 = adjust used 32769) :
    used = adjVoteBy := by
  have hleft := toNat_adjust adjVoteBy 32769
  have hright := toNat_adjust used 32769
  have hprobe : (32769 : UInt32).toNat = 32769 := rfl
  rw [h, hright, hprobe] at hleft
  split_ifs at hleft <;> omega

/-- Nothing is added to a count. -/
theorem adjust_zero (n : UInt32) : adjust 0 n = n :=
  (adjust_eq_self_iff ⟨by omega, by omega⟩).mpr (Or.inl rfl)

/-- The votes after a command that took its arguments. -/
theorem Cmd.votes_call (cmd : Cmd) {argv : List CStr} {args : VoteArgs}
    (h : cmd.args tcl argv = .ok args) (d : SData) (poll : Bytes) (c : Choice) :
    (cmd.call tcl d argv).1.votes poll c =
      if args.poll = poll ∧ inRange (cmd.used args).1 = some c
      then adjust (cmd.used args).2 (d.votes poll c) else d.votes poll c := by
  rw [cmd.call_eq, h]
  exact votes_vote _ d args.poll _ poll c

/-- The result of such a command tells the votes. -/
theorem Cmd.result_call (cmd : Cmd) {argv : List CStr} {args : VoteArgs}
    (h : cmd.args tcl argv = .ok args) (d : SData) :
    (cmd.call tcl d argv).2 = .ok (npResult ((cmd.call tcl d argv).1.votes args.poll)) := by
  rw [cmd.call_eq, h]
  rfl

/-- **A local and a remote command that differ in the names they take have the same effect exactly
for arguments that cross the network.** -/
theorem same_effect_iff {here there : Cmd} {argv : List CStr}
    (hargs : ∀ args, here.args tcl argv = .ok args ↔
      there.args tcl argv = .ok args ∧ args.poll.length < maxName)
    (hhere : ∀ args, here.args tcl argv = .ok args →
      here.used args = (args.choice, args.adjVoteBy))
    (hthere : ∀ args, -(2 ^ 15) ≤ (there.used args).2 ∧ (there.used args).2 < 2 ^ 15) :
    SameEffect tcl here there argv ↔
      ∀ args, there.args tcl argv = .ok args → args.Narrow (there.used args) := by
  constructor
  · intro hsame args hok
    -- a poll that tells the adjustments apart
    obtain ⟨hvotes, hresult⟩ :=
      hsame ⟨args, Or.inr hok⟩ ⟨fun _ => none, fun _ => some fun _ => 32769⟩
    have hok' : here.args tcl argv = .ok args := by
      cases hargs' : here.args tcl argv with
      | ok args' => exact hok.symm.trans ((hargs args').mp hargs').1 ▸ rfl
      | error err =>
          rw [here.call_eq, hargs', there.result_call hok] at hresult
          exact nomatch hresult
    refine ⟨((hargs args).mp hok').2, fun c hc => ?_⟩
    have hcount := congrFun (congrFun hvotes args.poll) c
    have hhit : args.poll = args.poll ∧ inRange (there.used args).1 = some c := ⟨rfl, hc⟩
    rw [here.votes_call hok', there.votes_call hok, hhere args hok', if_pos hhit] at hcount
    change (if args.For args.poll c then adjust args.adjVoteBy 32769 else 32769) =
      adjust (there.used args).2 32769 at hcount
    by_cases hfor : inRange args.choice = some c
    · have hfor' : args.For args.poll c := ⟨rfl, hfor⟩
      rw [if_pos hfor'] at hcount
      rw [if_pos hfor]
      exact eq_of_adjust_eq args.adjVoteBy_range (hthere args) hcount
    · have hnot : ¬ args.For args.poll c := fun h => hfor h.2
      rw [if_neg hnot] at hcount
      rw [if_neg hfor]
      exact eq_of_adjust_eq ⟨by omega, by omega⟩ (hthere args)
        ((adjust_zero 32769).trans hcount)
  · intro hnarrow haccepted d
    have hok : ∃ args, there.args tcl argv = .ok args := by
      obtain ⟨args, hok | hok⟩ := haccepted
      · exact ⟨args, ((hargs args).mp hok).1⟩
      · exact ⟨args, hok⟩
    obtain ⟨args, hok⟩ := hok
    obtain ⟨hname, hused⟩ := hnarrow args hok
    have hok' := (hargs args).mpr ⟨hok, hname⟩
    have hvotes : (here.call tcl d argv).1.votes = (there.call tcl d argv).1.votes := by
      funext poll c
      rw [here.votes_call hok', there.votes_call hok, hhere args hok']
      show (if args.For poll c then adjust args.adjVoteBy (d.votes poll c) else d.votes poll c) = _
      by_cases hhit : args.poll = poll ∧ inRange (there.used args).1 = some c
      · rw [if_pos hhit, hused c hhit.2]
        by_cases hfor : inRange args.choice = some c
        · have hfor' : args.For poll c := ⟨hhit.1, hfor⟩
          rw [if_pos hfor', if_pos hfor]
        · have hnot : ¬ args.For poll c := fun h => hfor h.2
          rw [if_neg hnot, if_neg hfor, adjust_zero]
      · have hnot : ¬ args.For poll c := fun h => hhit ⟨h.1, there.inRange_used h.2⟩
        rw [if_neg hhit, if_neg hnot]
    refine ⟨hvotes, ?_⟩
    rw [here.result_call hok', there.result_call hok, hvotes]

/-- What `nps.vote` takes, beside `npc.vote`. -/
theorem nps_args_iff (cmd poll choice : CStr) (args : VoteArgs) :
    npsVoteArgs tcl [cmd, poll, choice] = .ok args ↔
      npcVoteArgs tcl [cmd, poll, choice] = .ok args ∧ args.poll.length < maxName := by
  simp only [npsVoteArgs, npcVoteArgs, bind_eq_ok, checkPoll_eq_ok]
  constructor
  · rintro ⟨u, hlt, n, hn, h⟩
    obtain rfl := Except.ok.inj h
    exact ⟨⟨u, Nat.lt_succ_of_lt hlt, n, hn, rfl⟩, hlt⟩
  · rintro ⟨⟨u, -, n, hn, h⟩, hlt⟩
    obtain rfl := Except.ok.inj h
    exact ⟨u, hlt, n, hn, rfl⟩

/-- What `nps2.vote` takes, beside `npc2.vote`, which looks at its numbers in the other order. -/
theorem nps2_args_iff (cmd poll choice adjust : CStr) (args : VoteArgs) :
    nps2VoteArgs tcl [cmd, poll, choice, adjust] = .ok args ↔
      npc2VoteArgs tcl [cmd, poll, choice, adjust] = .ok args ∧ args.poll.length < maxName := by
  simp only [nps2VoteArgs, npc2VoteArgs, bind_eq_ok, checkPoll_eq_ok]
  constructor
  · rintro ⟨u, hlt, adjVoteBy, hadj, n, hn, h⟩
    obtain rfl := Except.ok.inj h
    exact ⟨⟨u, Nat.lt_succ_of_lt hlt, n, hn, adjVoteBy, hadj, rfl⟩, hlt⟩
  · rintro ⟨⟨u, -, n, hn, adjVoteBy, hadj, h⟩, hlt⟩
    obtain rfl := Except.ok.inj h
    exact ⟨u, hlt, adjVoteBy, hadj, n, hn, rfl⟩

/-- The votes of `nps.vote` are single ones. -/
theorem adjVoteBy_of_nps {argv : List CStr} {args : VoteArgs}
    (h : npsVoteArgs tcl argv = .ok args) : args.adjVoteBy = 1 := by
  unfold npsVoteArgs at h
  split at h
  next =>
    obtain ⟨_, -, h⟩ := bind_eq_ok.mp h
    exact Except.ok.inj h ▸ rfl
  next =>
    obtain ⟨_, -, h⟩ := bind_eq_ok.mp h
    obtain ⟨_, -, h⟩ := bind_eq_ok.mp h
    exact Except.ok.inj h ▸ rfl
  next => exact nomatch h

/-- A local command uses its arguments as they are. -/
theorem Cmd.used_local {cmd : Cmd} (hcmd : cmd = .nps ∨ cmd = .nps2) {argv : List CStr}
    {args : VoteArgs} (h : cmd.args tcl argv = .ok args) :
    cmd.used args = (args.choice, args.adjVoteBy) := by
  rcases hcmd with rfl | rfl
  · exact Prod.ext rfl (adjVoteBy_of_nps h).symm
  · rfl

/-- So its votes are always safe. -/
theorem safe_local {cmd : Cmd} (hcmd : cmd = .nps ∨ cmd = .nps2) (w : World) (argv : List CStr) :
    Safe tcl w (.vote cmd argv) := by
  intro args hargs c hc
  rw [Cmd.used_local hcmd hargs] at hc ⊢
  unfold VoteArgs.Counted
  dsimp only
  rw [if_pos hc]
  exact fun _ _ => Or.inl rfl

/-- When `nps.vote` and `npc.vote` have the same effect. -/
theorem np_same_effect_iff (cmd poll choice : CStr) :
    SameEffect tcl .nps .npc [cmd, poll, choice] ↔
      ∀ args, npcVoteArgs tcl [cmd, poll, choice] = .ok args →
        args.Narrow (Cmd.npc.used args) := by
  refine same_effect_iff (nps_args_iff cmd poll choice)
    (fun args hargs => Cmd.used_local (Or.inl rfl) hargs) fun args => ?_
  show -(2 ^ 15) ≤ (1 : Int) ∧ (1 : Int) < 2 ^ 15
  omega

/-- When `nps2.vote` and `npc2.vote` have the same effect. -/
theorem np2_same_effect_iff (cmd poll choice adjust : CStr) :
    SameEffect tcl .nps2 .npc2 [cmd, poll, choice, adjust] ↔
      ∀ args, npc2VoteArgs tcl [cmd, poll, choice, adjust] = .ok args →
        args.Narrow (Cmd.npc2.used args) :=
  same_effect_iff (nps2_args_iff cmd poll choice adjust)
    (fun _ hargs => Cmd.used_local (Or.inr rfl) hargs) fun args => int16_range args.adjVoteBy

/-- **The counts are right in every state of a run, and every step touches the one it is for only,
exactly if every vote is counted for the choice it was made for with its adjustment; and a local and
a remote command have the same effect exactly for arguments that cross the network.** -/
theorem polls_right_iff (tcl : Rpc.TclGetInt) :
    (∀ es, Along (World.act tcl) (Fine tcl) World.empty es ↔
      Along (World.act tcl) (Safe tcl) World.empty es) ∧
    (∀ cmd poll choice, SameEffect tcl .nps .npc [cmd, poll, choice] ↔
      ∀ args, npcVoteArgs tcl [cmd, poll, choice] = .ok args →
        args.Narrow (Cmd.npc.used args)) ∧
    ∀ cmd poll choice adjust, SameEffect tcl .nps2 .npc2 [cmd, poll, choice, adjust] ↔
      ∀ args, npc2VoteArgs tcl [cmd, poll, choice, adjust] = .ok args →
        args.Narrow (Cmd.npc2.used args) := by
  refine ⟨fun es => ?_, np_same_effect_iff, np2_same_effect_iff⟩
  refine along_congr (fun w e h => (h.act e).1) (fun w e w' h hfine hw' => ?_) es sound_empty
  exact (h.act e).2 ((h.act e).1.mp hfine) w' hw'

/-- The arguments of a vote. -/
def argsOf (args : List String) : List CStr := args.map fun arg => toCStr (ascii arg)

/-- A vote for choice 65536 from afar counts for choice 0, one by 32768 takes all votes away, and a
name of 32 characters is taken from afar only. -/
theorem votes_astray :
    ¬ Along (World.act .decimal) (Fine .decimal) World.empty
      [.vote .npc (argsOf ["npc.vote", "p", "65536"])] ∧
    ¬ Along (World.act .decimal) (Fine .decimal) World.empty
      [.vote .npc2 (argsOf ["npc2.vote", "p", "0", "32768"])] ∧
    ¬ SameEffect .decimal .nps .npc
      (argsOf ["npc.vote", "abcdefghijklmnopqrstuvwxyz012345", "1"]) := by
  refine ⟨fun h => ?_, fun h => ?_, fun h => ?_⟩
  · have hsafe := (sound_empty.act _).1.mp h.1
    have hcounts : Counts 0 0 1 :=
      hsafe (.one (toCStr (ascii "p")) 65536) (by decide +kernel) 0 (by decide)
    unfold Counts at hcounts
    omega
  · have hsafe := (sound_empty.act _).1.mp h.1
    have hcounts : Counts 0 32768 (-32768) :=
      hsafe ⟨ascii "p", 0, 32768, by omega⟩ (by decide +kernel) 0 (by decide) rfl (by decide)
    unfold Counts at hcounts
    omega
  · have hnarrow := (np_same_effect_iff _ _ _).mp h
    have hname := (hnarrow (.one (toCStr (ascii "abcdefghijklmnopqrstuvwxyz012345")) 1)
      (by decide +kernel)).1
    exact absurd hname (by decide +kernel)

end Nsdci.Poll
