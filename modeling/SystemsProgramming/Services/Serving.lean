/-
The Manager and its services as one.  From a command that is read to the next one the processes
come to what the tree model comes to, and they print its lines.
-/
import SystemsProgramming.Services.Courses

namespace SystemsProgramming

namespace Services

variable {s s' : State} {turn : Turn} {i : Instruction} {p q c : Nat} {next path : List Nat}
  {o : Option Course} {job : Job} {m : Manager} {r : Option Manager} {out : List Said}

namespace State

/-! The processes of the path, and the others. -/

theorem Comes.mem_path (hcomes : s.Comes i p path o) : p ∈ path := by
  cases hcomes <;> exact List.mem_cons_self

/-- The path goes on where a process of it waits for a child. -/
theorem Comes.next_mem (hcomes : s.Comes i p path o) (hq : q ∈ path)
    (hawait : (s.procs q).control = .await job c next) : c ∈ path := by
  have hnot : ∀ {p : Nat} {k : Control}, (s.procs p).control = k →
      (∀ job c next, k ≠ .await job c next) → q ∈ [p] → False := by
    intro p k hcontrol hne hmem
    obtain rfl := List.mem_singleton.mp hmem
    exact hne _ _ _ (hcontrol.symm.trans hawait)
  induction hcomes with
  | asked _ hcontrol | forking _ _ hcontrol | greeting _ hcontrol | walk hcontrol
  | reply _ hcontrol => exact (hnot hcontrol (by simp) hq).elim
  | answered _ hcontrol =>
      refine (hnot rfl ?_ hq).elim
      rintro job c next hawait'
      rw [hawait'] at hcontrol
      exact hcontrol.loop_or_gone.elim (by simp) id
  | dying _ _ hk =>
      rcases hk with hk | hk
      · exact (hnot hk (by simp) hq).elim
      · exact (hnot hk (by simp) hq).elim
  | @await p d done next' path passed left node o hcontrol _ _ _ _ _ _ _ hchild ih =>
      rcases List.mem_cons.mp hq with rfl | hq
      · rw [hawait] at hcontrol
        cases hcontrol
        exact List.mem_cons_of_mem _ hchild.mem_path
      · exact List.mem_cons_of_mem _ (ih hq)

/-- A service that has been called is on the path from the Manager. -/
theorem Comes.called_mem (h : Inv s) (hcomes : s.Comes i 0 path o) (hcalled : s.Called c) :
    c ∈ path := by
  induction c using Nat.strong_induction_on with
  | _ c ih =>
      obtain ⟨hp, hc⟩ := hcalled.mem h
      obtain ⟨hpos, hlt, -⟩ := h.family _ hp c hc
      obtain ⟨job, next, hawait⟩ := hcalled
      apply hcomes.next_mem _ hawait
      by_cases hzero : (s.procs c).parent = 0
      · rw [hzero]
        exact hcomes.mem_path
      · apply ih _ (h.older c hpos hlt)
        exact Called.of_passes h (Nat.pos_of_ne_zero hzero) hp (by simp [hawait, Control.passes])

/-- A service that nobody waits for reads at most its greeting or "dead". -/
theorem prints_of_not_called (h : Inv s) (hpos : 0 < turn.pid) (hnot : ¬ s.Called turn.pid) :
    s.prints turn = [] := by
  have hzero := Nat.ne_of_gt hpos
  cases hcontrol : (s.procs turn.pid).control with
  | loop =>
      have hp := h.lt_count (p := turn.pid) (by simp [hcontrol])
      rcases h.nextMessage hpos hcontrol with ⟨-, hnone⟩ | ⟨hfull, hnext⟩
      · simp [prints, hcontrol, hzero, hnone]
      · rcases (h.edge _ hpos hp).commandless hcontrol hfull with ⟨job, hstance, -⟩ |
          ⟨-, -, hdead, -⟩
        · obtain ⟨next, hawait⟩ := Control.await_of_toward hstance
          exact absurd ⟨job, next, hawait⟩ hnot
        · simp only [prints, hcontrol, if_neg hzero, hnext, hdead, Option.toList_some,
            List.flatMap_singleton]
          rfl
  | walk job tmp => cases tmp <;> simp [prints, hcontrol, hzero]
  | await job c next => simp [prints, hcontrol, hzero]
  | dying ending tmp => cases ending <;> cases tmp <;> simp [prints, hcontrol, hzero]
  | greet | forking | greeting | reply | waiting | returning | exited =>
      simp [prints, hcontrol]

/-- While the Manager passes an instruction on, it keeps its messages and its other buffers. -/
theorem manager_keeps (hmove : Move s turn s') (h : Inv s)
    (hpasses : (s.procs 0).control.passes = some job) :
    outgoing 0 (s'.procs 0) = outgoing 0 (s.procs 0) ∧
      ∀ job', job' ≠ job → (s'.procs 0).str job' = (s.procs 0).str job' := by
  by_cases hturn : turn.pid = 0
  · have hgoto : ∀ k, outgoing 0 ((s.procs 0).goto k) = outgoing 0 (s.procs 0) ∧
        ∀ job', job' ≠ job → ((s.procs 0).goto k).str job' = (s.procs 0).str job' :=
      fun _ => ⟨rfl, fun _ _ => rfl⟩
    cases hcontrol : (s.procs 0).control with
    | walk job' tmp =>
        have hself : (s.procs turn.pid).control = .walk job' tmp := by rw [hturn, hcontrol]
        cases tmp with
        | nil =>
            rw [hmove.of_walk_nil hself, hturn, procs_setProc_self]
            exact hgoto _
        | cons c next =>
            rcases hmove.of_walk_cons hself with ⟨-, rfl⟩ | ⟨-, rfl⟩
            · rw [hturn, procs_setProc_self]
              exact hgoto _
            · rw [hturn, procs_setProc_self]
              exact hgoto _
    | await job' c next =>
        rw [hcontrol] at hpasses
        obtain rfl := Option.some.inj hpasses
        have hself : (s.procs turn.pid).control = .await job' c next := by rw [hturn, hcontrol]
        obtain ⟨-, rfl⟩ := hmove.of_await hself
        rw [hturn, hear, procs_setProc_self]
        exact ⟨rfl, fun job'' hne => Function.update_of_ne hne _ _⟩
    | greet | loop | forking | greeting | reply | dying | waiting | returning | exited =>
        simp [hcontrol, Control.passes] at hpasses
  · have hlt : 0 < s.count := h.born
    rw [(hmove.frame h).procs 0 (Ne.symm hturn) hlt]
    exact ⟨rfl, fun _ _ => rfl⟩

/-! The Manager between two commands, and inside one. -/

/-- The processes are as `m` says, and the Manager is about to read a command. -/
structure Shows (s : State) (m : Manager) : Prop where
  control : (s.procs 0).control = .loop
  stands : s.Stands (s.procs 0).children m.root
  str : (s.procs 0).str = m.buf

/-- What has been printed, and the Manager that the processes come to behind the command at
hand; `none` says that they wait for ever. -/
inductive Serves (s : State) : List Said → Option Manager → Prop
  | idle {m : Manager} (hshows : s.Shows m) : Serves s (m.output.map Line.said) (some m)
  | forking {m : Manager} {child : Name} (garbage : Int)
      (hcontrol : (s.procs 0).control = .forking child.chars)
      (hroot : s.Stands (s.procs 0).children m.root) (hstr : (s.procs 0).str = m.buf) :
      Serves s (m.output.map Line.said) (some
        { m with root := m.root.createService child garbage, childNum := m.childNum + 1 })
  | greeting {m : Manager} {c : Nat} (hcontrol : (s.procs 0).control = .greeting c)
      (hroot : s.Stands (s.procs 0).children m.root) (hstr : (s.procs 0).str = m.buf) :
      Serves s (m.output.map Line.said) (some m)
  | passing {m : Manager} {i : Instruction} {path : List Nat} {o : Option Course}
      (hcomes : s.Comes i 0 path o)
      (hkill : ∀ want, i = .find want →
        outgoing 0 (s.procs 0) .kill = killText want.chars ++ [nul])
      (hstr : ∀ job, job ≠ i.job → (s.procs 0).str job = m.buf job) :
      Serves s (m.output.map Line.said) (o.bind (m.proceed i))

theorem Comes.passes (hcomes : s.Comes i 0 path o) :
    (s.procs 0).control.passes = some i.job := by
  cases hcomes with
  | walk hcontrol | await hcontrol =>
      rw [hcontrol]
      rfl
  | asked hpos | forking hpos | greeting hpos | reply hpos | answered hpos | dying hpos =>
      exact absurd hpos (Nat.lt_irrefl 0)

/-- The Manager behind its loop: a service that was found is killed next. -/
theorem Closes.serves {course : Course} (hcloses : s.Closes s' turn i course)
    (hkill : ∀ want, i = .find want → outgoing 0 (s.procs 0) .kill = killText want.chars ++ [nul])
    (hstr : ∀ job, job ≠ i.job → (s.procs 0).str job = m.buf job) :
    s'.Serves (m.output.map Line.said ++ s.prints turn) (m.proceed i course) := by
  have hout : (m.put i course).output.map Line.said = m.output.map Line.said ++ s.prints turn := by
    simp [Manager.put, hcloses.silent, hcloses.prints]
  have hbuf : (s'.procs 0).str = (m.put i course).buf := by
    rw [hcloses.str, Manager.buf_put]
    funext job
    by_cases hjob : job = i.job
    · subst hjob
      simp
    · rw [Function.update_of_ne hjob, Function.update_of_ne hjob, hstr job hjob]
  have hroot : s'.Stands (s'.procs 0).children (m.put i course).root := hcloses.stands
  rw [← hout]
  have hidle : (s'.procs 0).control = .loop →
      s'.Serves ((m.put i course).output.map Line.said) (some (m.put i course)) :=
    fun hcontrol => .idle ⟨hcontrol, hroot, hbuf⟩
  have hcontrol := hcloses.control
  cases i with
  | find want =>
      by_cases hyes : course.reply = .yes
      · rw [if_pos hyes] at hcontrol
        have hwalking : (s'.procs 0).control = .walk .kill (s'.procs 0).children := by
          rw [hcontrol, hcloses.same.children]
          rfl
        have htext : outgoing 0 (s'.procs 0) .kill = (Instruction.kill want).text ++ [nul] := by
          have hsame : outgoing 0 (s'.procs 0) .kill = outgoing 0 (s.procs 0) .kill := by
            simp [outgoing, hcloses.buf]
          rw [hsame, hkill want rfl]
          rfl
        have hwalk := Comes.begin (i := .kill want) hwalking htext hroot
        have hnot : ∀ want', Instruction.kill want = .find want' →
            outgoing 0 (s'.procs 0) .kill = killText want'.chars ++ [nul] := by
          intro want' hfind
          cases hfind
        have hpassing := Serves.passing (m := m.put (.find want) course) hwalk hnot
          (fun job _ => by rw [hbuf])
        have hproceed : m.proceed (.find want) course =
            (m.put (.find want) course).pursue (.kill want) := if_pos hyes
        rw [hproceed, Manager.pursue, Option.map_eq_bind, ← hbuf]
        exact hpassing
      · rw [if_neg hyes] at hcontrol
        have hproceed : m.proceed (.find want) course = some (m.put (.find want) course) :=
          if_neg hyes
        rw [hproceed]
        exact hidle hcontrol
  | spawn | exchange | kill =>
      apply hidle
      rw [hcontrol]
      split <;> rfl

/-- A turn inside a command. -/
theorem Serves.move (h : s.Coherent) (hok : s.Greeted turn) (hmove : Move s turn s')
    (hserves : s.Serves out r) (hcommand : turn.pid = 0 → (s.procs 0).control ≠ .loop) :
    s'.Serves (out ++ s.prints turn) r := by
  have hsilent : (∀ job c next, (s.procs 0).control ≠ .await job c next) → turn.pid ≠ 0 →
      s.prints turn = [] ∧ s'.procs 0 = s.procs 0 := by
    intro hnot hturn
    refine ⟨?_, (hmove.frame h.inv).procs 0 (Ne.symm hturn) h.inv.born⟩
    apply prints_of_not_called h.inv (Nat.pos_of_ne_zero hturn)
    intro hcalled
    obtain ⟨job, c, next, hawait⟩ := hcalled.manager h.inv
    exact hnot job c next hawait
  have hother : ∀ {l : Nodes}, turn.pid ≠ 0 → s.Stands (s.procs 0).children l →
      s'.Stands (s.procs 0).children l :=
    fun hturn hroot => hroot.move_other h.inv hmove h.inv.born (List.Subset.refl _) hturn
  cases hserves with
  | @idle m hshows =>
      have hturn : turn.pid ≠ 0 := fun hzero => hcommand hzero hshows.control
      obtain ⟨hprints, hproc⟩ := hsilent (by simp [hshows.control]) hturn
      rw [hprints, List.append_nil]
      refine .idle ⟨by rw [hproc, hshows.control], ?_, by rw [hproc, hshows.str]⟩
      rw [hproc]
      exact hother hturn hshows.stands
  | @forking m child garbage hcontrol hroot hstr =>
      by_cases hturn : turn.pid = 0
      · have hprints : s.prints turn = [] := by simp [prints, hturn, hcontrol]
        rw [← hturn] at hcontrol hroot
        obtain ⟨hgreeting, hroot'⟩ := hroot.fork h.inv hmove garbage hcontrol
        have hs' := hmove.of_forking hcontrol
        rw [hturn] at hgreeting hroot' hs'
        rw [hprints, List.append_nil]
        refine .greeting (m := { m with root := m.root.createService child garbage,
                                        childNum := m.childNum + 1 }) hgreeting hroot' ?_
        rw [hs', s.procs_fork_parent _ _ (Nat.ne_of_lt h.inv.born)]
        exact hstr
      · obtain ⟨hprints, hproc⟩ := hsilent (by simp [hcontrol]) hturn
        rw [hprints, List.append_nil]
        refine .forking garbage (by rw [hproc, hcontrol]) ?_ (by rw [hproc, hstr])
        rw [hproc]
        exact hother hturn hroot
  | @greeting m c hcontrol hroot hstr =>
      by_cases hturn : turn.pid = 0
      · have hprints : s.prints turn = [] := by simp [prints, hturn, hcontrol]
        rw [← hturn] at hcontrol hroot
        have hroot' := hroot.greeting h.inv hmove hcontrol
        have hs' := hmove.of_greeting hcontrol
        rw [hturn] at hroot' hs'
        rw [hprints, List.append_nil]
        rw [if_pos rfl] at hs'
        have hproc : s'.procs 0 = (s.procs 0).goto .loop := by rw [hs', procs_setProc_self]
        refine .idle ⟨by rw [hproc]; rfl, ?_, by rw [hproc]; exact hstr⟩
        rwa [hproc]
      · obtain ⟨hprints, hproc⟩ := hsilent (by simp [hcontrol]) hturn
        rw [hprints, List.append_nil]
        refine .greeting (by rw [hproc, hcontrol]) ?_ (by rw [hproc, hstr])
        rw [hproc]
        exact hother hturn hroot
  | @passing m i path o hcomes hkill hstr =>
      obtain ⟨houtgoing, hkeeps⟩ := manager_keeps hmove h.inv hcomes.passes
      have hkill' : ∀ want, i = .find want →
          outgoing 0 (s'.procs 0) .kill = killText want.chars ++ [nul] := by
        rw [houtgoing]
        exact hkill
      have hstr' : ∀ job, job ≠ i.job → (s'.procs 0).str job = m.buf job :=
        fun job hjob => (hkeeps job hjob).trans (hstr job hjob)
      rcases hcomes.move h hok hmove h.inv.born (fun hpos => absurd hpos (Nat.lt_irrefl 0)) with
        ⟨hnot, hcomes'⟩ | ⟨-, hgoes | ⟨-, course, rfl, hcloses⟩⟩
      · have hturn : turn.pid ≠ 0 := by
          intro hzero
          rw [hzero] at hnot
          exact hnot hcomes.mem_path
        have hprints : s.prints turn = [] := by
          apply prints_of_not_called h.inv (Nat.pos_of_ne_zero hturn)
          intro hcalled
          exact hnot (hcomes.called_mem h.inv hcalled)
        rw [hprints, List.append_nil]
        exact .passing hcomes' hkill' hstr'
      · obtain ⟨path', o', lines, hcomes', rfl, hlines⟩ := hgoes
        have hpassing := Serves.passing (m := m.print lines) hcomes' hkill' hstr'
        have hproceed : (o'.map (Course.following lines)).bind (m.proceed i) =
            o'.bind ((m.print lines).proceed i) := by
          rw [Option.bind_map]
          congr 1
          funext course
          exact m.proceed_following i lines course
        rw [hproceed, ← hlines, ← List.map_append]
        exact hpassing
      · exact hcloses.serves hkill hstr

end State

end Services

end SystemsProgramming
