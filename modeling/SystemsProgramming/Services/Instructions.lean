/-
What is passed on from service to service, and one loop over children for all of it.  The
loops of the Manager and of the services for `spawn`, `find`, `exchange` and `kill` are
instances of it.
-/
import SystemsProgramming.Services.Search
import SystemsProgramming.Services.Network

namespace SystemsProgramming

namespace Services

namespace Nodes

/-- The nodes of one list before those of another. -/
def append : Nodes → Nodes → Nodes
  | nil, later => later
  | cons node root next, later => cons node root (next.append later)

theorem append_nil (l : Nodes) : l.append nil = l := by
  induction l with
  | nil => rfl
  | cons node root next _ ihnext => rw [append, ihnext]

theorem append_assoc (l m t : Nodes) : (l.append m).append t = l.append (m.append t) := by
  induction l with
  | nil => rfl
  | cons node root next _ ihnext => rw [append, append, append, ihnext]

theorem createService_eq_append (child : Name) (garbage : Int) (l : Nodes) :
    l.createService child garbage = l.append (cons ⟨child, false, garbage, false⟩ nil nil) := by
  induction l with
  | nil => rfl
  | cons node root next _ ihnext => rw [createService, append, ihnext]

end Nodes

namespace Node

/-- A child that has answered: the one that says "yesn" leaves its loop. -/
def after (node : Node) (reply : Reply) : Node :=
  if reply = .yesn then { node with exited := true } else node

/-- A child that its parent marks, or not. -/
def marked (node : Node) (mark : Bool) : Node :=
  if mark then { node with haveKilled := true } else node

theorem after_of_ne {reply : Reply} (hne : reply ≠ .yesn) (node : Node) :
    node.after reply = node := if_neg hne

end Node

namespace Party

def chars : Party → List Char
  | manager => managerName
  | service name => name.chars

theorem noSpace : (party : Party) → ' ' ∉ party.chars
  | manager => by decide
  | service name => name.noSpace

theorem noNul : (party : Party) → nul ∉ party.chars
  | manager => by decide
  | service name => name.noNul

theorem short : (party : Party) → party.chars.length ≤ 15
  | manager => by decide
  | service name => name.short

theorem service_iff (name : Name) (party : Party) :
    Party.service name = party ↔ name.chars = party.chars := by
  cases party with
  | manager => simpa [chars] using name.notManager
  | service other =>
      cases name
      cases other
      simp [chars]

end Party

/-- A command that services pass on, with the names in it. -/
inductive Instruction where
  | spawn (parent : Party) (child : Name) (garbage : Int)
  | find (want : Name)
  | exchange (one other : Party)
  | kill (want : Name)

/-- What a loop over children comes to: what is answered, the `child_num` of the child that
said "yes", the reply buffer and the list behind the loop, and what has been printed. -/
structure Course where
  reply : Reply
  num : Int
  buf : Buffer
  root : Nodes
  lines : List Line

namespace Course

/-- The loop has passed these nodes before. -/
def behind (done : Nodes) (course : Course) : Course :=
  { course with root := done.append course.root }

/-- These lines have been printed before. -/
def following (lines : List Line) (course : Course) : Course :=
  { course with lines := lines ++ course.lines }

@[simp] theorem map_following_nil (o : Option Course) : o.map (following []) = o := by
  cases o <;> rfl

theorem behind_comp (done later : Nodes) :
    behind done ∘ behind later = behind (done.append later) := by
  funext course
  simp [behind, Nodes.append_assoc]

end Course

namespace Instruction

def job : Instruction → Job
  | spawn _ _ _ => .spawn
  | find _ => .find
  | exchange _ _ => .exchange
  | kill _ => .kill

def text : Instruction → List Char
  | spawn parent child _ => spawnText parent.chars child.chars
  | find want => findText want.chars
  | exchange one other => exchangeText one.chars other.chars
  | kill want => killText want.chars

/-- The service that does not pass it on. -/
def here (i : Instruction) (name : Name) : Bool :=
  match i with
  | spawn parent _ _ => Party.service name = parent
  | find want => name = want
  | exchange _ other => Party.service name = other
  | kill want => name = want

/-- What a service prints that receives it. -/
def lines (i : Instruction) (name : Name) : List Line :=
  match i with
  | spawn parent child _ => [.received (.service name) (.spawn parent child)]
  | find want => [.received (.service name) (.kill want)]
  | exchange one other => [.received (.service name) (.exchange one other)]
  | kill _ => []

/-- What the service comes to that does not pass it on; `none` says that it waits for ever. -/
def act (i : Instruction) (root : Nodes) : Option Course :=
  match i with
  | spawn _ child garbage => some ⟨.yes, 0, haha, root.createService child garbage, []⟩
  | find _ | exchange _ _ => some ⟨.yes, 0, haha, root, []⟩
  | kill _ => if root.dies then some ⟨.yesn, 0, haha, root.bury, []⟩ else none

/-- One service, given what the loop over its children comes to. -/
def answer (i : Instruction) (name : Name) (root : Nodes) (relayed : Option Course) :
    Option Course :=
  (if i.here name then i.act root else relayed).map (Course.following (i.lines name))

/-- What the loop of process `p` does with the answer of a child; `rest` is the loop over the
children behind it. -/
def hear (i : Instruction) (p : Nat) (node : Node) (next : Nodes)
    (rest : Buffer → Option Course) (buf : Buffer) (child : Course) : Option Course :=
  let str := State.settle p i.job (buf.read child.reply)
  let node := node.after child.reply
  if State.accepts p i.job str then
    some ⟨.yes, node.childNum, str, .cons (node.marked (State.marks p i.job str)) child.root next,
      child.lines⟩
  else
    ((rest str).map (Course.behind (.cons node child.root .nil))).map
      (Course.following child.lines)

/-- The loop over the children of process `p`.  Only the Manager differs from the others, so
that 1 stands for every service. -/
def loop (i : Instruction) : Nat → Buffer → Nodes → Option Course
  | _, buf, .nil => some ⟨.not, 0, buf, .nil, []⟩
  | p, buf, .cons node root next =>
      if node.haveKilled then (i.loop p buf next).map (Course.behind (.cons node root .nil))
      else
        (i.answer node.name root (i.loop 1 haha root)).bind
          (i.hear p node next (fun str => i.loop p str next) buf)

/-- The loop of process `p` from the answer of a child on. -/
def resume (i : Instruction) (p : Nat) (buf : Buffer) (node : Node) (next : Nodes)
    (child : Course) : Option Course :=
  i.hear p node next (fun str => i.loop p str next) buf child

variable {i : Instruction} {p : Nat} {buf : Buffer} {node : Node} {root next : Nodes}

theorem loop_marked (hmark : node.haveKilled = true) :
    i.loop p buf (.cons node root next) =
      (i.loop p buf next).map (Course.behind (.cons node root .nil)) := by
  rw [loop, if_pos hmark]

theorem loop_unmarked (hmark : node.haveKilled = false) :
    i.loop p buf (.cons node root next) =
      (i.answer node.name root (i.loop 1 haha root)).bind (i.resume p buf node next) := by
  rw [loop, if_neg (by simp [hmark])]
  rfl

/-- What has been printed before a child answers comes before the rest of the loop. -/
theorem resume_following (lines : List Line) (child : Course) :
    i.resume p buf node next (child.following lines) =
      (i.resume p buf node next child).map (Course.following lines) := by
  unfold resume hear
  dsimp only [Course.following]
  split
  · rfl
  · rw [Option.map_map, Option.map_map, Option.map_map]
    congr 1
    funext rest
    simp [Course.behind, Course.following]

/-- The test of a service takes a reply for what it is. -/
theorem accepts_service (hp : p ≠ 0) (job : Job) (buf : Buffer) (reply : Reply) :
    State.accepts p job (State.settle p job (buf.read reply)) = reply.isYes := by
  unfold State.accepts State.settle
  simp only [hp, false_and, if_false, or_false]
  split
  · exact Buffer.startsYes_read buf reply
  · cases reply <;> rfl

theorem loop_service (hp : p ≠ 0) (l : Nodes) : i.loop p buf l = i.loop 1 buf l := by
  induction l generalizing buf with
  | nil => rfl
  | cons node root next _ ihnext =>
      have hsettle : ∀ str, State.settle p i.job str = State.settle 1 i.job str := by
        intro str
        simp [State.settle, hp]
      have haccepts : ∀ str, State.accepts p i.job str = State.accepts 1 i.job str := by
        intro str
        simp [State.accepts, hp]
      have hmarks : ∀ str, State.marks p i.job str = State.marks 1 i.job str := by
        intro str
        simp [State.marks, haccepts, hp]
      have hhear : i.hear p node next (fun str => i.loop 1 str next) buf =
          i.hear 1 node next (fun str => i.loop 1 str next) buf := by
        funext child
        simp only [hear, hsettle, haccepts, hmarks]
      rw [loop, loop]
      simp only [ihnext, hhear]

/-- The instruction is carried out by a branch that looks for one service. -/
structure Is (i : Instruction) (b : Branch) : Prop where
  here : ∀ name, i.here name = b.here name
  act : ∀ root, i.act root = some ⟨.yes, 0, haha, b.act root, []⟩
  lines : ∀ name, i.lines name = [b.line name]
  job : i.job ≠ .kill

theorem spawn_is (parent : Party) (child : Name) (garbage : Int) :
    (spawn parent child garbage).Is (spawnBranch parent child garbage) :=
  ⟨fun _ => rfl, fun _ => rfl, fun _ => rfl, by simp [Instruction.job]⟩

theorem find_is (want : Name) : (find want).Is (findBranch want) :=
  ⟨fun _ => rfl, fun _ => rfl, fun _ => rfl, by simp [Instruction.job]⟩

theorem exchange_is (one other : Party) : (exchange one other).Is (exchangeBranch one other) :=
  ⟨fun _ => rfl, fun _ => rfl, fun _ => rfl, by simp [Instruction.job]⟩

namespace Is

variable {b : Branch}

theorem marked_eq (his : i.Is b) (node : Node) (str : Buffer) :
    node.marked (State.marks p i.job str) = node := by
  simp [State.marks, his.job, Node.marked]

/-- A service answers what the branch answers. -/
theorem answer_eq (his : i.Is b) (name : Name) {num : Int}
    (hroot : i.loop 1 haha root =
      some ⟨(b.relay root).reply, num, buf, (b.relay root).root, (b.relay root).lines⟩) :
    ∃ num buf, i.answer name root (i.loop 1 haha root) =
      some ⟨(b.answer name root (b.relay root)).reply, num, buf,
        (b.answer name root (b.relay root)).root,
        (b.answer name root (b.relay root)).lines⟩ := by
  unfold answer Branch.answer
  rw [his.here, his.lines, hroot]
  by_cases hhere : b.here name = true
  · rw [if_pos hhere, if_pos hhere, his.act]
    exact ⟨0, haha, rfl⟩
  · rw [if_neg hhere, if_neg hhere]
    exact ⟨num, buf, rfl⟩

/-- The loop of a service. -/
theorem relay_eq (his : i.Is b) (buf : Buffer) (l : Nodes) : ∃ num buf', i.loop 1 buf l =
    some ⟨(b.relay l).reply, num, buf', (b.relay l).root, (b.relay l).lines⟩ := by
  induction l generalizing buf with
  | nil => exact ⟨0, buf, rfl⟩
  | cons node root next ihroot ihnext =>
      unfold Branch.relay
      by_cases hmark : node.haveKilled = true
      · obtain ⟨num, buf', hnext⟩ := ihnext buf
        rw [loop_marked hmark, hnext, if_pos hmark]
        exact ⟨num, buf', rfl⟩
      · obtain ⟨num, buf', hroot⟩ := ihroot haha
        obtain ⟨num', str, hanswer⟩ := his.answer_eq node.name hroot
        have hreply := b.reply_answer node.name root
        rw [loop_unmarked (by simpa using hmark), hanswer, if_neg hmark]
        dsimp only [Option.bind_some, resume, hear]
        rw [accepts_service Nat.one_ne_zero, Node.after_of_ne hreply, his.marked_eq]
        split
        · exact ⟨_, _, rfl⟩
        · obtain ⟨num'', buf'', hnext⟩ :=
            ihnext (State.settle 1 i.job
              (buf.read (b.answer node.name root (b.relay root)).reply))
          rw [hnext]
          exact ⟨num'', buf'', rfl⟩

/-- The loop of the Manager. -/
theorem walk_eq (his : i.Is b) (buf : Buffer) (l : Nodes) : ∃ num, i.loop 0 buf l =
    some ⟨if (b.walk (State.settle 0 i.job) (State.accepts 0 i.job) buf l).found then .yes
        else .not,
      num, (b.walk (State.settle 0 i.job) (State.accepts 0 i.job) buf l).buf,
      (b.walk (State.settle 0 i.job) (State.accepts 0 i.job) buf l).root,
      (b.walk (State.settle 0 i.job) (State.accepts 0 i.job) buf l).lines⟩ := by
  induction l generalizing buf with
  | nil => exact ⟨0, rfl⟩
  | cons node root next _ ihnext =>
      rw [Branch.walk]
      by_cases hmark : node.haveKilled = true
      · obtain ⟨num, hnext⟩ := ihnext buf
        rw [loop_marked hmark, hnext, if_pos hmark]
        exact ⟨num, rfl⟩
      · obtain ⟨num, buf', hroot⟩ := his.relay_eq haha root
        obtain ⟨num', str, hanswer⟩ := his.answer_eq node.name hroot
        have hreply := b.reply_answer node.name root
        rw [loop_unmarked (by simpa using hmark), hanswer, if_neg hmark]
        dsimp only [Option.bind_some, resume, hear]
        rw [Node.after_of_ne hreply, his.marked_eq]
        split
        · exact ⟨_, rfl⟩
        · obtain ⟨num'', hnext⟩ :=
            ihnext (State.settle 0 i.job
              (buf.read (b.answer node.name root (b.relay root)).reply))
          rw [hnext]
          exact ⟨num'', rfl⟩

end Is

/-- A loop says "yes" or "not". -/
theorem reply_loop {course : Course} (l : Nodes) (hcourse : i.loop p buf l = some course) :
    course.reply ≠ .yesn := by
  induction l generalizing buf course with
  | nil =>
      obtain rfl := Option.some.inj hcourse
      simp
  | cons node root next _ ihnext =>
      by_cases hmark : node.haveKilled = true
      · rw [loop_marked hmark] at hcourse
        obtain ⟨rest, hrest, rfl⟩ := Option.map_eq_some_iff.mp hcourse
        have hreply := ihnext hrest
        exact hreply
      · rw [loop_unmarked (by simpa using hmark)] at hcourse
        obtain ⟨child, -, hresume⟩ := Option.bind_eq_some_iff.mp hcourse
        unfold resume hear at hresume
        dsimp only at hresume
        split at hresume
        · obtain rfl := Option.some.inj hresume
          simp
        · rw [Option.map_map] at hresume
          obtain ⟨rest, hrest, rfl⟩ := Option.map_eq_some_iff.mp hresume
          have hreply := ihnext hrest
          exact hreply

/-! The loops of `kill`. -/

section Kill

variable {want : Name}

/-- No service prints anything for a `kill`. -/
theorem lines_kill {course : Course} (l : Nodes)
    (hcourse : (kill want).loop p buf l = some course) : course.lines = [] := by
  induction l generalizing p buf course with
  | nil =>
      obtain rfl := Option.some.inj hcourse
      rfl
  | cons node root next ihroot ihnext =>
      by_cases hmark : node.haveKilled = true
      · rw [loop_marked hmark] at hcourse
        obtain ⟨rest, hrest, rfl⟩ := Option.map_eq_some_iff.mp hcourse
        have hlines := ihnext hrest
        exact hlines
      · rw [loop_unmarked (by simpa using hmark)] at hcourse
        obtain ⟨child, hchild, hresume⟩ := Option.bind_eq_some_iff.mp hcourse
        have hlines : child.lines = [] := by
          obtain ⟨inner, hinner, rfl⟩ := Option.map_eq_some_iff.mp hchild
          change inner.lines = []
          split at hinner
          · simp only [act] at hinner
            split at hinner
            · obtain rfl := Option.some.inj hinner
              rfl
            · cases hinner
          · exact ihroot hinner
        unfold resume hear at hresume
        dsimp only at hresume
        split at hresume
        · obtain rfl := Option.some.inj hresume
          exact hlines
        · rw [Option.map_map] at hresume
          obtain ⟨rest, hrest, rfl⟩ := Option.map_eq_some_iff.mp hresume
          simp [Course.following, Course.behind, hlines, ihnext hrest]

/-- A service with a `kill` at hand. -/
theorem killAnswer_eq (node : Node) (root : Nodes)
    (hroot : killRelay want root =
      ((kill want).loop 1 haha root).map fun course => (course.reply, course.root)) :
    killAnswer want node root (killRelay want root) =
      ((kill want).answer node.name root ((kill want).loop 1 haha root)).map
        fun course => (course.reply, node.after course.reply, course.root) := by
  unfold killAnswer answer
  by_cases hname : node.name = want
  · have hhere : (kill want).here node.name = true := by simpa [here] using hname
    rw [if_pos hname, if_pos hhere, act]
    split
    · rfl
    · rfl
  · have hhere : ¬ (kill want).here node.name = true := by simpa [here] using hname
    rw [if_neg hname, if_neg hhere, hroot, Option.map_map, Option.map_map]
    apply Option.map_congr
    intro course hcourse
    have hreply := reply_loop root hcourse
    simp [Course.following, Node.after_of_ne hreply]

/-- The loop of a service. -/
theorem killRelay_eq (buf : Buffer) (l : Nodes) : killRelay want l =
    ((kill want).loop 1 buf l).map fun course => (course.reply, course.root) := by
  induction l generalizing buf with
  | nil => rfl
  | cons node root next ihroot ihnext =>
      unfold killRelay
      by_cases hmark : node.haveKilled = true
      · rw [if_pos hmark, loop_marked hmark, ihnext buf, Option.map_map, Option.map_map]
        rfl
      · rw [if_neg hmark, loop_unmarked (by simpa using hmark),
          killAnswer_eq node root (ihroot haha), Option.bind_map, Option.map_bind]
        congr 1
        funext child
        have haccepts := accepts_service Nat.one_ne_zero .kill buf child.reply
        simp only [Function.comp_apply, resume, hear, job, haccepts]
        by_cases hyes : child.reply.isYes = true
        · have hmarks :
              State.marks 1 .kill (State.settle 1 .kill (buf.read child.reply)) = true := by
            simp [State.marks, haccepts, hyes]
          rw [if_pos hyes, if_pos hyes, hmarks]
          rfl
        · rw [if_neg hyes, if_neg hyes, Option.map_map, Option.map_map,
            ihnext (State.settle 1 .kill (buf.read child.reply)), Option.map_map]
          rfl

/-- What the Manager gets from its second loop. -/
def killed (course : Course) : KillWalk :=
  ⟨course.buf, if course.reply = .yes then some course.num else none, course.root⟩

/-- The second loop of the Manager. -/
theorem killWalk_eq (l : Nodes) :
    killWalk want buf l = ((kill want).loop 0 buf l).map killed := by
  induction l generalizing buf with
  | nil => rfl
  | cons node root next _ ihnext =>
      unfold killWalk
      by_cases hmark : node.haveKilled = true
      · rw [if_pos hmark, loop_marked hmark, ihnext, Option.map_map, Option.map_map]
        rfl
      · rw [if_neg hmark, loop_unmarked (by simpa using hmark),
          killAnswer_eq node root (killRelay_eq haha root), Option.bind_map, Option.map_bind]
        congr 1
        funext child
        have hsettle : State.settle 0 .kill (buf.read child.reply) = buf.read child.reply := by
          simp [State.settle]
        have haccepts : State.accepts 0 .kill (buf.read child.reply) =
            (buf.read child.reply).startsYes := by
          simp [State.accepts]
        simp only [Function.comp_apply, resume, hear, job, hsettle, haccepts]
        by_cases hyes : (buf.read child.reply).startsYes = true
        · have hmarks : State.marks 0 .kill (buf.read child.reply) =
              decide (buf.read child.reply fourth = 'n') := by
            simp [State.marks, haccepts, hyes]
          rw [if_pos hyes, if_pos hyes, hmarks]
          by_cases hthree : buf.read child.reply fourth = 'n'
          · simp [Node.marked, killed, hthree]
          · simp [Node.marked, killed, hthree]
        · rw [if_neg hyes, if_neg hyes, Option.map_map, Option.map_map, ihnext, Option.map_map]
          rfl

end Kill

/-- What the Manager prints behind its loop. -/
def closing (i : Instruction) (course : Course) : List Line :=
  match i with
  | spawn parent _ _ => if course.reply = .yes then [] else [.notExist parent]
  | find want => if course.reply = .yes then [] else [.notExist (.service want)]
  | exchange one other => [.exchanged one other]
  | kill want => if course.reply = .yes then [.killed want course.num] else []

end Instruction

namespace Manager

def buf (m : Manager) : Job → Buffer
  | .spawn => m.spawnBuf
  | .kill => m.killBuf
  | .find => m.findBuf
  | .exchange => m.exchangeBuf

theorem buf_load (m : Manager) (bufs : Buffers) : (m.load bufs).buf = bufs := by
  funext job
  cases job <;> rfl

def setBuf (m : Manager) (job : Job) (str : Buffer) : Manager :=
  match job with
  | .spawn => { m with spawnBuf := str }
  | .kill => { m with killBuf := str }
  | .find => { m with findBuf := str }
  | .exchange => { m with exchangeBuf := str }

theorem buf_setBuf (m : Manager) (job : Job) (str : Buffer) :
    (m.setBuf job str).buf = Function.update m.buf job str := by
  funext job'
  cases job <;> cases job' <;> rfl

/-- The Manager behind its loop. -/
def put (m : Manager) (i : Instruction) (course : Course) : Manager :=
  { m.setBuf i.job course.buf with
    root := course.root, output := m.output ++ course.lines ++ i.closing course }

theorem buf_put (m : Manager) (i : Instruction) (course : Course) :
    (m.put i course).buf = Function.update m.buf i.job course.buf := by
  rw [← buf_setBuf]
  rfl

/-- The Manager with one instruction to pass on. -/
def pursue (m : Manager) (i : Instruction) : Option Manager :=
  (i.loop 0 (m.buf i.job) m.root).map (m.put i)

/-- The rest of a command behind a loop: a service that was found is killed. -/
def proceed (m : Manager) (i : Instruction) (course : Course) : Option Manager :=
  match i with
  | .find want =>
      if course.reply = .yes then (m.put i course).pursue (.kill want) else some (m.put i course)
  | _ => some (m.put i course)

/-- Lines that were printed inside the loop have been printed before its end. -/
theorem put_following (m : Manager) (i : Instruction) (lines : List Line) (course : Course) :
    m.put i (course.following lines) = (m.print lines).put i course := by
  have hclosing : i.closing (course.following lines) = i.closing course := by
    cases i <;> rfl
  unfold put
  rw [hclosing]
  cases i <;> simp [setBuf, print, Instruction.job, Course.following]

theorem proceed_following (m : Manager) (i : Instruction) (lines : List Line) (course : Course) :
    m.proceed i (course.following lines) = (m.print lines).proceed i course := by
  unfold proceed
  rw [put_following]
  cases i <;> rfl

end Manager

/-- The line of the Manager that takes a command. -/
def Command.received : Command → Line
  | spawn parent child _ => .received .manager (.spawn parent child)
  | kill target => .received .manager (.kill target)
  | exchange one other => .received .manager (.exchange one other)

/-- What the Manager passes on first for a command. -/
def Command.first : Command → Instruction
  | spawn parent child garbage => .spawn parent child garbage
  | kill target => .find target
  | exchange one other => .exchange one other

/-- The Manager spawns its own children itself. -/
def Command.Passed : Command → Prop
  | spawn parent _ _ => parent ≠ .manager
  | _ => True

namespace Branch

variable {b : Branch} {settle : Buffer → Buffer} {accepts accepts' : Buffer → Bool}

theorem walk_congr (hsame : ∀ buf, accepts (settle buf) = accepts' (settle buf)) (buf : Buffer)
    (l : Nodes) : b.walk settle accepts buf l = b.walk settle accepts' buf l := by
  induction l generalizing buf with
  | nil => rfl
  | cons node root next _ ihnext =>
      rw [walk, walk]
      simp only [ihnext, hsame]

end Branch

theorem settle_find : State.settle 0 .find = Buffer.terminate := by
  funext str
  simp [State.settle]

theorem settle_exchange : State.settle 0 .exchange = Buffer.terminate := by
  funext str
  simp [State.settle]

theorem settle_spawn : State.settle 0 .spawn = id := by
  funext str
  simp [State.settle]

theorem accepts_spawn : State.accepts 0 .spawn = Buffer.isYes := by
  funext str
  simp [State.accepts]

theorem accepts_exchange : State.accepts 0 .exchange = Buffer.startsYes := by
  funext str
  simp [State.accepts]

theorem accepts_find (str : Buffer) :
    State.accepts 0 .find str.terminate = str.terminate.isYes := by
  simp [State.accepts, Buffer.isYes, Buffer.terminate]

namespace Manager

theorem spawn_eq (m : Manager) {parent : Party} (hparent : parent ≠ .manager) (child : Name)
    (garbage : Int) : some (m.spawn parent child garbage) =
      (m.print [.received .manager (.spawn parent child)]).pursue
        (.spawn parent child garbage) := by
  obtain ⟨num, hloop⟩ := (Instruction.spawn_is parent child garbage).walk_eq
    m.spawnBuf m.root
  have hwalk : (Instruction.spawn parent child garbage).job = .spawn := rfl
  rw [hwalk, settle_spawn, accepts_spawn] at hloop
  have hbuf : (m.print [.received .manager (.spawn parent child)]).buf
      (Instruction.spawn parent child garbage).job = m.spawnBuf := rfl
  have hroot : (m.print [.received .manager (.spawn parent child)]).root = m.root := rfl
  rw [pursue, hbuf, hroot, hloop, Option.map_some]
  simp only [spawn, if_neg hparent, print, put, setBuf, Instruction.job, Instruction.closing]
  by_cases hfound : ((spawnBranch parent child garbage).walk id Buffer.isYes m.spawnBuf
      m.root).found = true
  · simp [hfound]
  · simp [hfound]

theorem exchange_eq (m : Manager) (one other : Party) : some (m.exchange one other) =
    (m.print [.received .manager (.exchange one other)]).pursue (.exchange one other) := by
  obtain ⟨num, hloop⟩ := (Instruction.exchange_is one other).walk_eq
    m.exchangeBuf m.root
  have hwalk : (Instruction.exchange one other).job = .exchange := rfl
  rw [hwalk, settle_exchange, accepts_exchange] at hloop
  have hbuf : (m.print [.received .manager (.exchange one other)]).buf
      (Instruction.exchange one other).job = m.exchangeBuf := rfl
  have hroot : (m.print [.received .manager (.exchange one other)]).root = m.root := rfl
  rw [pursue, hbuf, hroot, hloop, Option.map_some]
  simp [exchange, print, put, setBuf, Instruction.job, Instruction.closing]

theorem kill_eq (m : Manager) (target : Name) : m.kill target =
    ((Instruction.find target).loop 0 m.findBuf m.root).bind
      ((m.print [.received .manager (.kill target)]).proceed (.find target)) := by
  obtain ⟨num, hloop⟩ := (Instruction.find_is target).walk_eq m.findBuf m.root
  have hwalk : (Instruction.find target).job = .find := rfl
  rw [hwalk, settle_find, Branch.walk_congr accepts_find] at hloop
  rw [hloop, Option.bind_some]
  unfold kill proceed
  dsimp only [print]
  by_cases hfound : ((findBranch target).walk Buffer.terminate Buffer.isYes m.findBuf
      m.root).found = true
  · rw [if_pos hfound, if_pos (by rw [if_pos hfound]), Instruction.killWalk_eq, pursue,
      Option.map_map]
    apply Option.map_congr
    intro course hcourse
    have hlines := Instruction.lines_kill _ hcourse
    by_cases hyes : course.reply = .yes
    · simp [Instruction.killed, put, setBuf, Instruction.job, Instruction.closing, hfound, hlines,
        hyes]
    · simp [Instruction.killed, put, setBuf, Instruction.job, Instruction.closing, hfound, hlines,
        hyes]
  · rw [if_neg hfound, if_neg (by simp [hfound])]
    simp [put, setBuf, Instruction.job, Instruction.closing, hfound]

/-- A command is a line of the Manager, a loop, and what follows from it. -/
theorem step_eq (m : Manager) {command : Command} (hpassed : command.Passed) :
    m.step command = (command.first.loop 0 (m.buf command.first.job) m.root).bind
      ((m.print [command.received]).proceed command.first) := by
  cases command with
  | spawn parent child garbage =>
      exact (m.spawn_eq hpassed child garbage).trans (Option.map_eq_bind ..)
  | kill target => exact m.kill_eq target
  | exchange one other => exact (m.exchange_eq one other).trans (Option.map_eq_bind ..)

end Manager

end Services

end SystemsProgramming
