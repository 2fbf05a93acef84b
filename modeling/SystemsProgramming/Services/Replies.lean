/-
The reply buffers of the Manager as arrays that keep their bytes from one command to the
next: how each loop judges a reply, and when bytes of earlier replies decide.  Where the
compiler puts the buffers is left open: loops may share an array.
-/
import SystemsProgramming.Services.Network
import SystemsProgramming.Services.Kill

namespace SystemsProgramming

namespace Services

/-- What a loop of the Manager makes of a reply: whether it stops, and whether it marks the
child that answered. -/
structure Decision where
  accepted : Bool
  marked : Bool
deriving Repr, DecidableEq

namespace Job

/-- `buf[3] = '\\0'`, which two of the loops do behind the `read`. -/
def settle : Job → Buffer → Buffer
  | find, buf | exchange, buf => buf.terminate
  | spawn, buf | kill, buf => buf

/-- `strcmp` or `strncmp` with "yes". -/
def accepts : Job → Buffer → Bool
  | spawn, buf | find, buf => buf.isYes
  | kill, buf | exchange, buf => buf.startsYes

/-- The buffer behind the `read` of a reply. -/
def hear (job : Job) (buf : Buffer) (reply : Reply) : Buffer := job.settle (buf.read reply)

def judge (job : Job) (buf : Buffer) (reply : Reply) : Decision :=
  let buf := job.hear buf reply
  { accepted := job.accepts buf, marked := job = .kill && job.accepts buf && buf fourth = 'n' }

end Job

/-- A 3-byte "yes" is a success that marks nobody, "yesn" marks, and "not" moves on. -/
theorem judge_zeroed (job : Job) :
    job.judge zeroed .yes = ⟨true, false⟩ ∧ Job.kill.judge zeroed .yesn = ⟨true, true⟩ ∧
      job.judge zeroed .not = ⟨false, false⟩ := by
  cases job <;> decide

/-- Whether the loop puts a NUL behind the three bytes of a reply. -/
def Job.terminates : Job → Bool
  | find | exchange => true
  | spawn | kill => false

/-- The replies that write the fourth byte of the array they are read into. -/
def writesFourth (heard : Job × Reply) : Bool := heard.1.terminates || heard.2 = .yesn

/-- A fourth byte by which the loop judges a "yes" as it does with a zeroed buffer. -/
def Job.Harmless (c : Char) : Job → Prop
  | spawn => c = nul
  | kill => c ≠ 'n'
  | find | exchange => True

section Arrays

variable {β : Type*} [DecidableEq β] (place : Job → β)

/-- The arrays after replies that the loops have read, one after the other; the buffer of a
loop lies in the array `place job`. -/
def after (arrays : β → Buffer) (history : List (Job × Reply)) : β → Buffer :=
  history.foldl (fun arrays heard =>
    Function.update arrays (place heard.1)
      (heard.1.hear (arrays (place heard.1)) heard.2)) arrays

/-- The last reply that has written the fourth byte of an array. -/
def lastFourth (history : List (Job × Reply)) (array : β) : Option (Job × Reply) :=
  (history.filter fun heard => place heard.1 = array && writesFourth heard).getLast?

/-- The fourth byte by which a loop judges a "yes" is the loop's own NUL, or that of another
loop in the same array, or the harmless one that was there from the start. -/
def Job.Unspoilt (job : Job) (init : β → Buffer) (history : List (Job × Reply)) : Prop :=
  job.terminates = true ∨
    match lastFourth place history (place job) with
    | some heard => heard.1.terminates = true
    | none => job.Harmless (init (place job) fourth)

end Arrays

variable {β : Type*} [DecidableEq β] {place : Job → β} {arrays : β → Buffer}
  {job : Job} {buf : Buffer} {reply : Reply} {l : Nodes} {x : Name} {b : Branch}

theorem after_append (first rest : List (Job × Reply)) :
    after place arrays (first ++ rest) = after place (after place arrays first) rest :=
  List.foldl_append

theorem after_concat (history : List (Job × Reply)) (heard : Job × Reply) :
    after place arrays (history ++ [heard]) =
      Function.update (after place arrays history) (place heard.1)
        (heard.1.hear (after place arrays history (place heard.1)) heard.2) :=
  after_append history [heard]

theorem lastFourth_concat (history : List (Job × Reply)) (heard : Job × Reply) (array : β) :
    lastFourth place (history ++ [heard]) array =
      if place heard.1 = array ∧ writesFourth heard = true then some heard
      else lastFourth place history array := by
  unfold lastFourth
  rw [List.filter_append]
  by_cases hwrites : place heard.1 = array ∧ writesFourth heard = true
  · simp [hwrites]
  · have hnone :
        [heard].filter (fun heard => place heard.1 = array && writesFourth heard) = [] := by
      simpa using hwrites
    rw [hnone, List.append_nil, if_neg hwrites]

/-- What a reply makes of the fourth byte. -/
theorem hear_fourth (heard : Job × Reply) (buf : Buffer) :
    heard.1.hear buf heard.2 fourth =
      if heard.1.terminates then nul else if heard.2 = .yesn then 'n' else buf fourth := by
  obtain ⟨job, reply⟩ := heard
  cases job <;> cases reply <;> rfl

/-- The fourth byte of an array is what the last reply to write it has left. -/
theorem fourth_after (history : List (Job × Reply)) (array : β) :
    after place arrays history array fourth =
      match lastFourth place history array with
      | some heard => if heard.1.terminates then nul else 'n'
      | none => arrays array fourth := by
  induction history using List.reverseRecOn with
  | nil => rfl
  | append_singleton history heard ih =>
      rw [after_concat, lastFourth_concat]
      by_cases harray : place heard.1 = array
      · subst harray
        have hbyte := hear_fourth heard (after place arrays history (place heard.1))
        rw [Function.update_self, hbyte]
        cases hterm : heard.1.terminates with
        | true => simp [writesFourth, hterm]
        | false =>
            by_cases hyesn : heard.2 = .yesn
            · simp [writesFourth, hterm, hyesn]
            · simpa [writesFourth, hterm, hyesn] using ih
      · rw [Function.update_of_ne (Ne.symm harray), if_neg (fun h => harray h.1)]
        exact ih

/-- Only a "yes" can be judged by bytes that are not its own. -/
theorem judge_eq_zeroed_of_ne (hreply : reply ≠ .yes) :
    job.judge buf reply = job.judge zeroed reply := by
  cases reply with
  | yes => exact absurd rfl hreply
  | yesn => cases job <;> rfl
  | not => cases job <;> rfl

theorem judge_yes_eq_zeroed_iff :
    job.judge buf .yes = job.judge zeroed .yes ↔ job.Harmless (buf fourth) := by
  have hstarts : (buf.read .yes).startsYes = true := rfl
  have hzeroed := (judge_zeroed job).1
  rw [hzeroed]
  cases job with
  | spawn =>
      simp only [Job.judge, Job.hear, Job.settle, Job.accepts, Buffer.isYes, hstarts,
        Buffer.read_yes_fourth, Decision.mk.injEq, Bool.true_and, reduceCtorEq, decide_false,
        Bool.false_and, and_true]
      exact decide_eq_true_iff
  | kill =>
      simp only [Job.judge, Job.hear, Job.settle, Job.accepts, hstarts, Buffer.read_yes_fourth,
        Decision.mk.injEq, decide_true, Bool.true_and, true_and]
      exact decide_eq_false_iff_not
  | find => simp [Job.judge, Job.hear, Job.settle, Job.accepts, Job.Harmless, Reply.isYes]
  | exchange =>
      have hkept : (buf.read .yes).terminate.startsYes = true := rfl
      simp [Job.judge, Job.hear, Job.settle, Job.accepts, Job.Harmless, hkept]

theorem harmless_of_terminates (hterm : job.terminates = true) (c : Char) : job.Harmless c := by
  cases job with
  | find | exchange => trivial
  | spawn | kill => cases hterm

/-- The loops that do not write the fourth byte take a NUL for harmless, and no 'n'. -/
theorem harmless_left (hterm : job.terminates = false) (ends : Bool) :
    job.Harmless (if ends then nul else 'n') ↔ ends = true := by
  cases job with
  | find | exchange => cases hterm
  | spawn | kill => cases ends <;> simp [Job.Harmless, nul]

/-- For any bytes in the arrays, any replies so far and any loops that share an array, a reply
is judged by its own bytes exactly if it is no "yes" or the loop's fourth byte is unspoilt. -/
theorem judge_eq_zeroed_iff {β : Type*} [DecidableEq β] (place : Job → β) (init : β → Buffer)
    (history : List (Job × Reply)) (job : Job) (reply : Reply) :
    job.judge (after place init history (place job)) reply = job.judge zeroed reply ↔
      (reply = .yes → job.Unspoilt place init history) := by
  by_cases hreply : reply = .yes
  · subst hreply
    rw [judge_yes_eq_zeroed_iff, fourth_after, imp_iff_right rfl, Job.Unspoilt]
    cases hterm : job.terminates with
    | true => exact iff_of_true (harmless_of_terminates hterm _) (Or.inl rfl)
    | false =>
        rw [or_iff_right Bool.false_ne_true]
        cases lastFourth place history (place job) with
        | none => exact Iff.rfl
        | some heard => exact harmless_left hterm heard.1.terminates
  · exact iff_of_true (judge_eq_zeroed_of_ne hreply) fun h => absurd h hreply

/-- The replies that one loop reads. -/
def heardBy (job : Job) (replies : List Reply) : List (Job × Reply) :=
  replies.map fun reply => (job, reply)

theorem after_heardBy (arrays : β → Buffer) (job : Job) (replies : List Reply) :
    after place arrays (heardBy job replies) =
      Function.update arrays (place job) (replies.foldl job.hear (arrays (place job))) := by
  induction replies generalizing arrays with
  | nil => simp [heardBy, after]
  | cons reply replies ih =>
      have hrest := ih (Function.update arrays (place job) (job.hear (arrays (place job)) reply))
      simp only [Function.update_self, Function.update_idem] at hrest
      exact hrest

namespace Branch

/-- The loops of the Manager for `spawn`, `find` and `exchange` go by `judge`. -/
theorem walk_judge (b : Branch) (job : Job) (buf : Buffer) (node : Node) (root next : Nodes)
    (hmark : node.haveKilled = false) :
    b.walk job.settle job.accepts buf (.cons node root next) =
      let child := b.answer node.name root (b.relay root)
      let heard := job.hear buf child.reply
      if (job.judge buf child.reply).accepted then
        ⟨true, heard, .cons node child.root next, child.lines⟩
      else
        let rest := b.walk job.settle job.accepts heard next
        ⟨rest.found, rest.buf, .cons node child.root rest.root, child.lines ++ rest.lines⟩ := by
  rw [walk, if_neg (by simp [hmark])]
  rfl

theorem walk_heard (b : Branch) (job : Job) (buf : Buffer) (l : Nodes) :
    ∃ replies : List Reply, Reply.yesn ∉ replies ∧
      (b.walk job.settle job.accepts buf l).buf = replies.foldl job.hear buf := by
  induction l generalizing buf with
  | nil => exact ⟨[], by simp, rfl⟩
  | cons node root next _ ihnext =>
      cases hmark : node.haveKilled with
      | true =>
          obtain ⟨replies, hyesn, hbuf⟩ := ihnext buf
          exact ⟨replies, hyesn, by rw [walk, if_pos hmark]; exact hbuf⟩
      | false =>
          have hreply := reply_answer b node.name root
          rw [walk_judge b job buf node root next hmark]
          dsimp only
          split
          · exact ⟨[_], by simpa using hreply.symm, rfl⟩
          · obtain ⟨replies, hyesn, hbuf⟩ :=
              ihnext (job.hear buf (b.answer node.name root (b.relay root)).reply)
            exact ⟨_ :: replies, by simp [hreply.symm, hyesn], hbuf⟩

end Branch

/-- So does the second loop of `kill`, which marks the child that answered. -/
theorem killWalk_judge (want : Name) (buf : Buffer) (node : Node) (root next : Nodes)
    {reply : Reply} {node' : Node} {root' : Nodes} (hmark : node.haveKilled = false)
    (hanswer : killAnswer want node root (killRelay want root) = some (reply, node', root')) :
    killWalk want buf (.cons node root next) =
      let heard := Job.kill.hear buf reply
      let decision := Job.kill.judge buf reply
      if decision.accepted then
        let node' := if decision.marked then { node' with haveKilled := true } else node'
        some ⟨heard, some node'.childNum, .cons node' root' next⟩
      else
        (killWalk want heard next).map fun rest =>
          ⟨rest.buf, rest.killed, .cons node' root' rest.root⟩ := by
  rw [killWalk, if_neg (by simp [hmark]), hanswer, Option.bind_some]
  simp only [Job.judge, Job.hear, Job.settle, Job.accepts]
  by_cases hyes : (buf.read reply).startsYes = true
  · rw [if_pos hyes, if_pos hyes, hyes]
    by_cases hn : buf.read reply fourth = 'n' <;> simp [hn]
  · rw [if_neg hyes, if_neg hyes]

theorem killWalk_heard {want : Name} {walk : KillWalk} (hwalk : killWalk want buf l = some walk) :
    ∃ replies : List Reply, walk.buf = replies.foldl Job.kill.hear buf := by
  induction l generalizing buf walk with
  | nil =>
      obtain rfl := Option.some.inj hwalk
      exact ⟨[], rfl⟩
  | cons node root next _ ihnext =>
      cases hmark : node.haveKilled with
      | true =>
          rw [killWalk, if_pos hmark, Option.map_eq_some_iff] at hwalk
          obtain ⟨rest, hrest, rfl⟩ := hwalk
          obtain ⟨replies, hbuf⟩ := ihnext hrest
          exact ⟨replies, hbuf⟩
      | false =>
          have hwalk' := hwalk
          rw [killWalk, if_neg (by simp [hmark]), Option.bind_eq_some_iff] at hwalk'
          obtain ⟨⟨reply, node', root'⟩, hanswer, -⟩ := hwalk'
          rw [killWalk_judge want buf node root next hmark hanswer] at hwalk
          dsimp only at hwalk
          split at hwalk
          · obtain rfl := Option.some.inj hwalk
            exact ⟨[reply], rfl⟩
          · obtain ⟨rest, hrest, rfl⟩ := Option.map_eq_some_iff.mp hwalk
            obtain ⟨replies, hbuf⟩ := ihnext hrest
            exact ⟨reply :: replies, hbuf⟩

section Keeping

variable (place)

/-- What a command finds in its buffers where the arrays have kept their bytes.  The loop of
"find" has read when the other loop of a `kill` starts. -/
def found (m : Manager) (arrays : β → Buffer) : Command → Buffers
  | .kill target =>
      let find := (findBranch target).walk Buffer.terminate Buffer.isYes
        (arrays (place .find)) m.root
      Function.update (fun job => arrays (place job)) .kill
        (Function.update arrays (place .find) find.buf (place .kill))
  | _ => fun job => arrays (place job)

/-- The arrays when the command is done and its loops have left `m` behind. -/
def left (m : Manager) (arrays : β → Buffer) : Command → β → Buffer
  | .spawn _ _ _ => Function.update arrays (place .spawn) m.spawnBuf
  | .kill _ =>
      Function.update (Function.update arrays (place .find) m.findBuf) (place .kill) m.killBuf
  | .exchange _ _ => Function.update arrays (place .exchange) m.exchangeBuf

/-- The commands where the arrays keep their bytes. -/
def keeping : TransitionSystem (Manager × (β → Buffer)) Command where
  start state := commands.start state.1
  step state command :=
    (commands.step state.1 (command, found place state.1 state.2 command)).map fun m =>
      (m, left place m state.2 command)

end Keeping

namespace Manager

variable {m m' : Manager} {arrays' : β → Buffer}

theorem heard_spawn (place : Job → β) (m : Manager) (arrays : β → Buffer) (parent : Party)
    (child : Name) (garbage : Int) :
    let command := Command.spawn parent child garbage
    let m' := (m.load (found place m arrays command)).spawn parent child garbage
    ∃ replies : List Reply, Reply.yesn ∉ replies ∧
      left place m' arrays command = after place arrays (heardBy .spawn replies) := by
  intro command m'
  have hspawn : ∃ replies : List Reply, Reply.yesn ∉ replies ∧
      m'.spawnBuf = replies.foldl Job.spawn.hear (arrays (place .spawn)) := by
    cases parent with
    | manager => exact ⟨[], by simp, rfl⟩
    | service p =>
        obtain ⟨replies, hyesn, hbuf⟩ :=
          (spawnBranch (.service p) child garbage).walk_heard .spawn (arrays (place .spawn)) m.root
        refine ⟨replies, hyesn, ?_⟩
        rw [← hbuf]
        dsimp only [m', spawn]
        rw [if_neg (by simp)]
        split <;> rfl
  obtain ⟨replies, hyesn, hbuf⟩ := hspawn
  refine ⟨replies, hyesn, ?_⟩
  rw [after_heardBy, ← hbuf]
  rfl

theorem heard_exchange (place : Job → β) (m : Manager) (arrays : β → Buffer)
    (one other : Party) :
    let command := Command.exchange one other
    let m' := (m.load (found place m arrays command)).exchange one other
    ∃ replies : List Reply, Reply.yesn ∉ replies ∧
      left place m' arrays command = after place arrays (heardBy .exchange replies) := by
  intro command m'
  obtain ⟨replies, hyesn, hbuf⟩ :=
    (exchangeBranch one other).walk_heard .exchange (arrays (place .exchange)) m.root
  refine ⟨replies, hyesn, ?_⟩
  rw [after_heardBy, ← hbuf]
  rfl

/-- The second loop of a `kill` reads into what the loop of "find" has left. -/
theorem heard_kill {target : Name}
    (hkill : (m.load (found place m arrays (.kill target))).kill target = some m') :
    ∃ finds kills : List Reply, Reply.yesn ∉ finds ∧
      left place m' arrays (.kill target) =
        after place arrays (heardBy .find finds ++ heardBy .kill kills) := by
  obtain ⟨finds, hyesn, hfind⟩ :=
    (findBranch target).walk_heard .find (arrays (place .find)) m.root
  have hread : ∃ kills : List Reply,
      m'.findBuf = finds.foldl Job.find.hear (arrays (place .find)) ∧
      m'.killBuf =
        kills.foldl Job.kill.hear (after place arrays (heardBy .find finds) (place .kill)) := by
    have hfound : found place m arrays (.kill target) .kill =
        after place arrays (heardBy .find finds) (place .kill) := by
      rw [after_heardBy, ← hfind]
      rfl
    rw [← hfound, ← hfind]
    unfold kill at hkill
    dsimp only at hkill
    split at hkill
    · obtain ⟨walk, hwalk, rfl⟩ := Option.map_eq_some_iff.mp hkill
      obtain ⟨kills, hkills⟩ := killWalk_heard hwalk
      exact ⟨kills, rfl, hkills⟩
    · obtain rfl := Option.some.inj hkill
      exact ⟨[], rfl, rfl⟩
  obtain ⟨kills, hfinds, hkills⟩ := hread
  refine ⟨finds, kills, hyesn, ?_⟩
  rw [after_append, after_heardBy _ .kill, ← hkills, after_heardBy, ← hfinds]
  rfl

/-- A completed command changes the arrays by replies only, and no service says "yesn" but
to a `kill`. -/
theorem step_heard {command : Command}
    (hstep : (keeping place).step (m, arrays) command = some (m', arrays')) :
    ∃ history : List (Job × Reply), arrays' = after place arrays history ∧
      ∀ job, (job, Reply.yesn) ∈ history → job = .kill := by
  have honly : ∀ {job : Job} {replies : List Reply}, Reply.yesn ∉ replies →
      ∀ job', (job', Reply.yesn) ∉ heardBy job replies := by
    intro job replies hyesn job' hmem
    obtain ⟨reply, hreply, heq⟩ := List.mem_map.mp hmem
    obtain rfl : reply = .yesn := congrArg Prod.snd heq
    exact hyesn hreply
  obtain ⟨_, hcommand, heq⟩ := Option.map_eq_some_iff.mp hstep
  obtain ⟨rfl, rfl⟩ := Prod.mk.inj heq
  cases command with
  | spawn parent child garbage =>
      obtain rfl := Option.some.inj hcommand
      obtain ⟨replies, hyesn, hleft⟩ := heard_spawn place m arrays parent child garbage
      exact ⟨_, hleft, fun job hmem => absurd hmem (honly hyesn job)⟩
  | kill target =>
      obtain ⟨finds, kills, hyesn, hleft⟩ := heard_kill hcommand
      refine ⟨_, hleft, ?_⟩
      intro job hmem
      rcases List.mem_append.mp hmem with hfind | hkill
      · exact absurd hfind (honly hyesn job)
      · obtain ⟨reply, -, heq⟩ := List.mem_map.mp hkill
        exact (congrArg Prod.fst heq).symm
  | exchange one other =>
      obtain rfl := Option.some.inj hcommand
      obtain ⟨replies, hyesn, hleft⟩ := heard_exchange place m arrays one other
      exact ⟨_, hleft, fun job hmem => absurd hmem (honly hyesn job)⟩

/-- A run in which the arrays keep their bytes is a run of commands, and what it leaves in the
arrays comes from a history of replies. -/
theorem run_heard {script : List Command}
    (hrun : (keeping place).run (m, arrays) script = some (m', arrays')) :
    (∃ history : List (Job × Reply), arrays' = after place arrays history ∧
      ∀ job, (job, Reply.yesn) ∈ history → job = .kill) ∧
    ∃ run : List (Command × Buffers), run.map Prod.fst = script ∧
      commands.run m run = some m' := by
  induction script generalizing m arrays with
  | nil =>
      obtain ⟨rfl, rfl⟩ := Prod.mk.inj (Option.some.inj hrun)
      exact ⟨⟨[], rfl, by simp⟩, [], rfl, rfl⟩
  | cons command script ih =>
      simp only [TransitionSystem.run, Option.bind_eq_some_iff] at hrun
      obtain ⟨⟨mid, between⟩, hstep, hrest⟩ := hrun
      obtain ⟨first, hfirst, honly⟩ := step_heard hstep
      obtain ⟨⟨rest, hlast, honly'⟩, run, hscript, hrun⟩ := ih hrest
      obtain ⟨_, hcommand, heq⟩ := Option.map_eq_some_iff.mp hstep
      obtain ⟨rfl, -⟩ := Prod.mk.inj heq
      refine ⟨⟨first ++ rest, by rw [after_append, ← hfirst, hlast], ?_⟩,
        (command, found place m arrays command) :: run, by rw [List.map_cons, hscript], ?_⟩
      · intro job hmem
        rcases List.mem_append.mp hmem with h | h
        · exact honly job h
        · exact honly' job h
      · rw [TransitionSystem.run, hcommand]
        exact hrun

end Manager

/-- One array for all loops, zeroed: `kill X`, a child of the Manager, leaves the 'n' by which
the "yes" to `spawn A B` is judged, and the Manager does not find `A`, which has spawned `B`. -/
theorem not_judge_eq_zeroed_direct_kill :
    let place : Job → Unit := fun _ => ()
    let spawns : List Command := [.spawn .manager nameX 0, .spawn .manager nameA 0]
    ∃ m arrays, (keeping place).run (Manager.fresh, fun _ => zeroed) (spawns ++ [.kill nameX]) =
        some (m, arrays) ∧
      Job.spawn.judge (arrays (place .spawn)) .yes ≠ Job.spawn.judge zeroed .yes ∧
      ∃ m' arrays', (keeping place).step (m, arrays) (.spawn (.service nameA) nameB 0) =
          some (m', arrays') ∧
        nameB ∈ m'.root.reachable.labels ∧
        m'.output.getLast? = some (.notExist (.service nameA)) :=
  ⟨_, _, rfl, by decide, _, _, rfl, by decide, by decide⟩

end Services

end SystemsProgramming
