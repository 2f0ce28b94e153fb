import Nsdci.Rpc
import Nsdci.Lib.WriteBack

/-!
# Polls (`poll.c`)

A poll counts the votes for each of twenty choices. `nps.vote` and `nps2.vote` count in the cache of
the server (`npsVote`, `nps2Vote`), and `npc.vote` and `npc2.vote` ask the server for it with a
request (`npsProc`, `nps2Proc`). The cache is written back to a gdbm file by a timer and when an
entry is evicted.

Everything the server does with a poll is under the lock of the cache, so a command is one step.
`Ns_CacheDeleteEntry` removes an entry and leaves the value to its caller, who has freed it.
-/

namespace Nsdci.Poll

open Lib Function

/-- `POLL_MAXNAME`. -/
def maxName : Nat := 32

/-- A choice that is counted: a number below `POLL_MAXCHOICE`. -/
abbrev Choice := Fin 20

/-- The choice an `int` stands for, if it is in range. -/
def inRange (choice : Int) : Option Choice :=
  if h : 0 ≤ choice ∧ choice < 20 then some ⟨choice.toNat, by omega⟩ else none

/-- `Votes`. -/
abbrev Votes := Choice → UInt32

/-- The cache of polls and the file behind it. -/
abbrev SData := WriteBack Bytes Votes

/-- The votes of `ns_calloc`. -/
def Votes.zero : Votes := fun _ => 0

/-- The votes of a poll, in the cache or in the file. -/
def SData.votes (d : SData) : Bytes → Votes := d.value .zero

/-! ## The server -/

/-- What `NpsVote` and `Nps2Vote` do: the poll is loaded, and a choice in range is counted. -/
def vote (count : UInt32 → UInt32) (d : SData) (board : Bytes) (choice : Int) : SData × Votes :=
  let d' := match inRange choice with
    | some c => d.modify .zero board fun votes => update votes c (count (votes c))
    | none => d.load .zero board
  (d', SData.votes d' board)

/-- `NpsVote`. -/
def npsVote : SData → Bytes → Int → SData × Votes := vote fun n => n + 1

/-- A count adjusted, and zero when more than it has is taken away. -/
def adjust (adjVoteBy : Int) (n : UInt32) : UInt32 :=
  if adjVoteBy < 0 ∧ adjVoteBy.natAbs > n.toNat then 0 else n + UInt32.ofInt adjVoteBy

/-- `Nps2Vote`. -/
def nps2Vote (d : SData) (board : Bytes) (choice adjVoteBy : Int) : SData × Votes :=
  vote (adjust adjVoteBy) d board choice

/-- `NpsFlushVotes`. -/
def npsFlushVotes (d : SData) : SData := d.flush

/-- An entry is evicted, which `NpsFreeEntry` frees. -/
def npsFreeEntry (d : SData) (name : Bytes) : SData := d.evict name

/-- `Msg`. The choice is in network byte order. -/
structure Msg where
  choice : Bytes
  name : Bytes

/-- `Msg2`. The adjustment is in network byte order, too. -/
structure Msg2 where
  choice : Bytes
  name : Bytes
  adjVoteBy : Bytes

/-- The votes in network byte order. -/
def reply (r : SData × Votes) : SData × (Choice → Bytes) := (r.1, fun c => be32 (r.2 c).toNat)

/-- `NpsProc`: the choice is a `uint16_t`. -/
def npsProc (d : SData) (msg : Msg) : SData × (Choice → Bytes) :=
  reply (npsVote d msg.name (ofBe16 msg.choice))

/-- `Nps2Proc`: the adjustment is an `int16_t`. -/
def nps2Proc (d : SData) (msg : Msg2) : SData × (Choice → Bytes) :=
  reply (nps2Vote d msg.name (ofBe16 msg.choice) (int16 (ofBe16 msg.adjVoteBy)))

/-! ## The commands -/

/-- What the commands report: the usage, a name that is too long, or what Tcl says of a number. -/
inductive VoteError where
  | usage (cmd args : Bytes)
  | poll (name : Bytes)
  | number (arg : Bytes)
  deriving DecidableEq

/-- The text of an error of the commands themselves. -/
def VoteError.text : VoteError → Option Bytes
  | .usage cmd args => some (ascii "wrong # args: should be \"" ++ cmd ++ args)
  | .poll name => some (ascii "invalid poll: " ++ name)
  | .number _ => none

/-- The arguments of a vote. The adjustment is an `int`. -/
structure VoteArgs where
  poll : Bytes
  choice : Int
  adjVoteBy : Int
  adjVoteBy_range : -(2 ^ 31) ≤ adjVoteBy ∧ adjVoteBy < 2 ^ 31
  deriving DecidableEq

/-- One vote for a choice. -/
def VoteArgs.one (poll : CStr) (choice : Int) : VoteArgs := ⟨poll.1, choice, 1, by decide⟩

/-- A name shorter than `limit`. -/
def checkPoll (limit : Nat) (poll : CStr) : Except VoteError Unit :=
  if limit ≤ poll.1.length then .error (.poll poll.1) else .ok ()

/-- `Tcl_GetInt`. -/
def getInt (tcl : Rpc.TclGetInt) (arg : CStr) :
    Except VoteError { n : Int // -(2 ^ 31) ≤ n ∧ n < 2 ^ 31 } :=
  match tcl.getInt arg.1 with
  | some n => .ok ⟨int32 n, int32_range n⟩
  | none => .error (.number arg.1)

/-- A call without the right number of arguments. -/
def usage (argv : List CStr) (args : String) : Except VoteError VoteArgs :=
  .error (.usage (argv.head?.elim [] Subtype.val) (ascii args))

/-- The checks of `NpsVoteCmd`. -/
def npsVoteArgs (tcl : Rpc.TclGetInt) (argv : List CStr) : Except VoteError VoteArgs :=
  match argv with
  | [_, poll] => do
      checkPoll maxName poll
      return .one poll (-1)
  | [_, poll, choice] => do
      checkPoll maxName poll
      let choice ← getInt tcl choice
      return .one poll choice
  | _ => usage argv " poll ?choice?\""

/-- The checks of `Nps2VoteCmd`. -/
def nps2VoteArgs (tcl : Rpc.TclGetInt) (argv : List CStr) : Except VoteError VoteArgs :=
  match argv with
  | [_, poll] => do
      checkPoll maxName poll
      return .one poll (-1)
  | [_, poll, choice] => do
      checkPoll maxName poll
      let choice ← getInt tcl choice
      return .one poll choice
  | [_, poll, choice, adjust] => do
      checkPoll maxName poll
      let adjVoteBy ← getInt tcl adjust
      let choice ← getInt tcl choice
      return ⟨poll.1, choice, adjVoteBy, adjVoteBy.2⟩
  | _ => usage argv " poll ?choice? ?adjust?\""

/-- The checks of `NpcVoteCmd`, which takes a name of `POLL_MAXNAME` as well. -/
def npcVoteArgs (tcl : Rpc.TclGetInt) (argv : List CStr) : Except VoteError VoteArgs :=
  match argv with
  | [_, poll, choice] => do
      checkPoll (maxName + 1) poll
      let n ← getInt tcl choice
      return .one poll n
  | _ => usage argv " poll choice\""

/-- The checks of `Npc2VoteCmd`. -/
def npc2VoteArgs (tcl : Rpc.TclGetInt) (argv : List CStr) : Except VoteError VoteArgs :=
  match argv with
  | [_, poll, choice, adjust] => do
      checkPoll (maxName + 1) poll
      let n ← getInt tcl choice
      let adjVoteBy ← getInt tcl adjust
      return ⟨poll.1, n, adjVoteBy, adjVoteBy.2⟩
  | _ => usage argv " poll choice adjust\""

/-- `NpResult`: the total and the votes, as `int`s. -/
def npResult (votes : Votes) : Bytes :=
  let total := (List.finRange 20).foldl (fun n c => n + votes c) 0
  decimal (int32 total.toNat) ++
    (List.finRange 20).flatMap fun c => ascii " " ++ decimal (int32 (votes c).toNat)

/-- What a command leaves, and its result. -/
abbrev Voted := SData × Except VoteError Bytes

/-- A command votes when it takes its arguments. -/
def voteCmd (d : SData) (args : Except VoteError VoteArgs) (serve : VoteArgs → SData × Votes) :
    Voted :=
  match args with
  | .error e => (d, .error e)
  | .ok args => ((serve args).1, .ok (npResult (serve args).2))

/-- `NpsVoteCmd`. -/
def npsVoteCmd (tcl : Rpc.TclGetInt) (d : SData) (argv : List CStr) : Voted :=
  voteCmd d (npsVoteArgs tcl argv) fun args => npsVote d args.poll args.choice

/-- `Nps2VoteCmd`. -/
def nps2VoteCmd (tcl : Rpc.TclGetInt) (d : SData) (argv : List CStr) : Voted :=
  voteCmd d (nps2VoteArgs tcl argv) fun args => nps2Vote d args.poll args.choice args.adjVoteBy

/-- The request of `NpcVoteCmd`. -/
def VoteArgs.msg (args : VoteArgs) : Msg := ⟨be16 args.choice, args.poll⟩

/-- The request of `Npc2VoteCmd`. -/
def VoteArgs.msg2 (args : VoteArgs) : Msg2 := ⟨be16 args.choice, args.poll, be16 args.adjVoteBy⟩

/-- The votes of a reply. -/
def ofReply (r : SData × (Choice → Bytes)) : SData × Votes :=
  (r.1, fun c => UInt32.ofNat (ofBe32 (r.2 c)))

/-- `NpcVoteCmd`, with its request and the reply delivered. -/
def npcVoteCmd (tcl : Rpc.TclGetInt) (d : SData) (argv : List CStr) : Voted :=
  voteCmd d (npcVoteArgs tcl argv) fun args => ofReply (npsProc d args.msg)

/-- `Npc2VoteCmd`, with its request and the reply delivered. -/
def npc2VoteCmd (tcl : Rpc.TclGetInt) (d : SData) (argv : List CStr) : Voted :=
  voteCmd d (npc2VoteArgs tcl argv) fun args => ofReply (nps2Proc d args.msg2)

/-- `NpsDeleteCmd`. -/
def npsDeleteCmd (d : SData) (poll : CStr) : SData := d.delete poll.1

end Nsdci.Poll
