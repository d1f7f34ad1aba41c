import Unbundle.Proofs.Build.Opened
import Unbundle.Proofs.Declaration.Encoded

/-! What a session remembers over a run of any length. An operation looks for a stream at one
moment, in the memory first and else in the file as it is then. What is remembered is the first that
could be read, it stays, and each direction is remembered by itself. -/

namespace Unbundle.Build
open Unbundle.Files
open Unbundle.Declaration (Stream readStream)

/-- What the file of a stream reads as on a disk. -/
def Setup.reads (setup : Setup) (direction : Direction) (disk : Disk) : Except Failure Stream :=
  let path := setup.settings.sdk.declarations direction
  match disk.readBytes path with
  | .error fault => .error (.io path fault)
  | .ok bytes =>
    match Stream.ofBytes? direction setup.settings.capture bytes with
    | none => .error (.io path .notText)
    | some stream => .ok stream

/-- A stream out of a memory, or else as its file reads now. Nothing new is remembered. -/
def Setup.recall (setup : Setup) (memory : Memory) (direction : Direction) : SessionM Stream := do
  match memory.get direction with
  | some stream => return stream
  | none => liftExcept (setup.reads direction (← get).disk)

/-! The operations of a session over any way to come to a stream. -/

def streamsFrom (read : Direction → SessionM Stream) : SessionM Streams := do
  let inputs ← ExceptT.lift (read .inputs).run
  let outputs ← ExceptT.lift (read .outputs).run
  return ⟨← liftExcept inputs, ← liftExcept outputs⟩

namespace Setup

def planOf (setup : Setup) (streams : Streams) : SessionM TypesPlan := do
  let enums ← SessionM.ofWork (Work.listIfPresent setup.settings.sdk.enums)
  let named (stream : Stream) := stream.modules.keys ++ stream.issues.map (·.scope.module)
  let modules := named streams.inputs ++ named streams.outputs ++ directoryNames enums
  return ⟨streams, (Std.ExtTreeSet.ofList modules).toList⟩

def stagesOf (setup : Setup) (types : Except Failure TypesPlan) :
    StateM Session (Plan × List Outcome) := do
  let first ← SessionM.onDisk (setup.runUnits types (planned (types.map (·.units))))
  let plan : Plan := ⟨types, ← setup.planModules⟩
  let second ← SessionM.onDisk (setup.runUnits types (planned plan.implementationUnits))
  return (plan, first ++ second)

def writeTypes (setup : Setup) (plan : TypesPlan) : SessionM Result := do
  let outcomes ← ExceptT.lift (SessionM.onDisk (setup.runUnits (.ok plan) plan.units))
  return ⟨(collect plan.units outcomes).sortFailures, outcomes.flatMap (·.announced)⟩

variable (setup : Setup) (read : Direction → SessionM Stream)

def planTypesFrom : SessionM TypesPlan := streamsFrom read >>= setup.planOf

def createTypesFrom : SessionM Result := do
  SessionM.ofWork setup.makeOutputRoot
  setup.planTypesFrom read >>= setup.writeTypes

def buildFrom : SessionM Result := do
  SessionM.ofWork setup.makeOutputRoot
  let (plan, outcomes) ← ExceptT.lift ((setup.planTypesFrom read).run >>= setup.stagesOf)
  return ⟨plan.report outcomes, outcomes.flatMap (·.announced)⟩

end Setup

inductive Operation where
  | stream (direction : Direction)
  | streams
  | createTypes
  | build
  | makeOutputRoot
  | allPackages
deriving DecidableEq, Repr

namespace Operation

def Answer : Operation → Type
  | stream _ => Stream
  | streams => Streams
  | createTypes => Result
  | build => Result
  | makeOutputRoot => Unit
  | allPackages => List Package

def run (setup : Setup) : (operation : Operation) → SessionM operation.Answer
  | stream direction => setup.stream direction
  | streams => setup.streams
  | createTypes => setup.createTypes
  | build => setup.build
  | makeOutputRoot => SessionM.ofWork setup.makeOutputRoot
  | allPackages => SessionM.ofWork setup.allPackages

/-- The operation with a way of its own to come to a stream. -/
def runFrom (setup : Setup) (read : Direction → SessionM Stream) :
    (operation : Operation) → SessionM operation.Answer
  | stream direction => read direction
  | streams => streamsFrom read
  | createTypes => setup.createTypesFrom read
  | build => setup.buildFrom read
  | makeOutputRoot => SessionM.ofWork setup.makeOutputRoot
  | allPackages => SessionM.ofWork setup.allPackages

theorem run_eq_runFrom (setup : Setup) (operation : Operation) :
    operation.run setup = operation.runFrom setup setup.stream := by
  cases operation <;> rfl

/-- The disk on which the operation looks for a stream, if it comes to that. -/
def asks (setup : Setup) (operation : Operation) (direction : Direction) (disk : Disk) :
    Option Disk :=
  match operation with
  | stream other => if direction = other then some disk else none
  | streams => some disk
  | createTypes | build =>
    match setup.makeOutputRoot.run.run disk with
    | (.ok (), ready) => some ready
    | (.error _, _) => none
  | makeOutputRoot | allPackages => none

end Operation

section Reading
variable {setup : Setup} {memory : Memory} {direction other : Direction} {session : Session}
  {disk : Disk}

theorem Setup.run_readStream :
    (readStream (setup.settings.sdk.declarations direction) direction setup.settings.capture).run.run
      disk = (setup.reads direction disk, disk) := by
  unfold reads readStream Work.at
  rw [run_adapt, run_bind, run_ofDisk]
  simp only
  cases disk.readBytes (setup.settings.sdk.declarations direction) with
  | error fault => rfl
  | ok bytes =>
    simp only
    cases Stream.ofBytes? direction setup.settings.capture bytes <;> rfl

theorem Setup.reads_text {text : String}
    (h : disk.readBytes (setup.settings.sdk.declarations direction) = .ok text.toUTF8) :
    setup.reads direction disk = .ok (Stream.ofText direction setup.settings.capture text) := by
  unfold reads
  simp only [h, Declaration.ofBytes?_toUTF8]

theorem Setup.reads_error {fault : Fault}
    (h : disk.readBytes (setup.settings.sdk.declarations direction) = .error fault) :
    setup.reads direction disk =
      .error (.io (setup.settings.sdk.declarations direction) fault) := by
  unfold reads
  simp only [h]

theorem Setup.reads_notText {bytes : ByteArray}
    (h : disk.readBytes (setup.settings.sdk.declarations direction) = .ok bytes)
    (hinvalid : ∀ text : String, text.toUTF8 ≠ bytes) :
    setup.reads direction disk =
      .error (.io (setup.settings.sdk.declarations direction) .notText) := by
  unfold reads
  simp only [h, Declaration.ofBytes?_eq_none hinvalid]

/-- A memory that has learnt what the file of a stream reads as, if it did not know the stream. -/
def Setup.learn (setup : Setup) (disk : Disk) (memory : Memory) (direction : Direction) : Memory :=
  match memory.get direction, setup.reads direction disk with
  | none, .ok stream => memory.remember stream direction
  | _, _ => memory

theorem Memory.get_remember {stream : Stream} : (memory.remember stream direction).get other =
    if other = direction then some stream else memory.get other := by
  cases direction <;> cases other <;> rfl

theorem Setup.get_learn : (setup.learn disk memory direction).get other =
    if other = direction then (memory.get other).or (setup.reads other disk).toOption
    else memory.get other := by
  unfold learn
  by_cases hother : other = direction
  · subst hother
    rw [if_pos rfl]
    cases hget : memory.get other with
    | some stream => simp [hget]
    | none =>
      cases hreads : setup.reads other disk with
      | error failure => simpa [Except.toOption] using hget
      | ok stream => simp [Memory.get_remember, Except.toOption]
  · rw [if_neg hother]
    split
    · rw [Memory.get_remember, if_neg hother]
    · rfl

def Setup.finds (setup : Setup) (memory : Memory) (direction : Direction) (disk : Disk) :
    Except Failure Stream :=
  match memory.get direction with
  | some stream => .ok stream
  | none => setup.reads direction disk

theorem Setup.run_recall : (setup.recall memory direction).run.run session =
    (setup.finds memory direction session.disk, session) := by
  unfold Setup.recall Setup.finds
  cases memory.get direction with
  | some stream => rfl
  | none =>
    simp only
    rw [run_bind, run_get]
    simp only
    cases setup.reads direction session.disk <;> rfl

theorem Setup.run_stream : (setup.stream direction).run.run session =
    (setup.finds session.memory direction session.disk,
      { session with memory := setup.learn session.disk session.memory direction }) := by
  unfold stream finds learn
  rw [run_bind, run_get]
  simp only
  cases session.memory.get direction with
  | some stream => rfl
  | none =>
    simp only
    rw [run_bind, run_ofWork, run_readStream]
    cases setup.reads direction session.disk <;> rfl

theorem Setup.finds_learn (h : other ≠ direction) :
    setup.finds (setup.learn disk memory direction) other disk = setup.finds memory other disk := by
  unfold finds
  rw [get_learn, if_neg h]

theorem run_streamsFrom {read : Direction → SessionM Stream} {inputs outputs : Except Failure Stream}
    {middle after : Session} (hinputs : (read .inputs).run.run session = (inputs, middle))
    (houtputs : (read .outputs).run.run middle = (outputs, after)) :
    (streamsFrom read).run.run session = (do return ⟨← inputs, ← outputs⟩, after) := by
  unfold streamsFrom
  rw [run_bind, run_lift, hinputs]
  simp only
  rw [run_bind, run_lift, houtputs]
  cases inputs <;> cases outputs <;> rfl

def Setup.learnBoth (setup : Setup) (disk : Disk) (memory : Memory) : Memory :=
  setup.learn disk (setup.learn disk memory .inputs) .outputs

theorem Setup.get_learnBoth : (setup.learnBoth disk memory).get direction =
    (memory.get direction).or (setup.reads direction disk).toOption := by
  unfold learnBoth
  rw [get_learn, get_learn]
  cases direction <;> simp

theorem Setup.run_streams : setup.streams.run.run session =
    (do return ⟨← setup.finds session.memory .inputs session.disk,
        ← setup.finds session.memory .outputs session.disk⟩,
      { session with memory := setup.learnBoth session.disk session.memory }) := by
  have hother := @finds_learn setup session.memory .inputs .outputs session.disk (by decide)
  have hrun := run_streamsFrom (@run_stream setup .inputs session) run_stream
  rw [hother] at hrun
  exact hrun

end Reading

def Diskwise {α : Type} (work : StateM Session α) : Prop :=
  ∃ onDisk : StateM Disk α, work = SessionM.onDisk onDisk

section Diskwise
variable {α β : Type} {setup : Setup}

theorem Diskwise.pure {a : α} : Diskwise (Pure.pure a) := ⟨Pure.pure a, rfl⟩

theorem Diskwise.onDisk {work : StateM Disk α} : Diskwise (SessionM.onDisk work) := ⟨work, rfl⟩

theorem Diskwise.ofWork {work : Work α} : Diskwise (SessionM.ofWork work).run := ⟨work.run, rfl⟩

theorem Diskwise.bind {work : StateM Session α} {next : α → StateM Session β} (h : Diskwise work)
    (hnext : ∀ a, Diskwise (next a)) : Diskwise (work >>= next) := by
  obtain ⟨work, rfl⟩ := h
  choose next' hnext using hnext
  obtain rfl : next = fun a => SessionM.onDisk (next' a) := funext hnext
  exact ⟨work >>= next', rfl⟩

theorem diskwise_bindCont {next : α → SessionM β} (h : ∀ a, Diskwise (next a).run)
    (result : Except Failure α) : Diskwise (ExceptT.bindCont next result).run := by
  cases result with
  | error failure => exact .pure
  | ok a => exact h a

theorem Diskwise.bindM {work : SessionM α} {next : α → SessionM β} (h : Diskwise work.run)
    (hnext : ∀ a, Diskwise (next a).run) : Diskwise (work >>= next).run :=
  h.bind (diskwise_bindCont hnext)

theorem Diskwise.lift {work : StateM Session α} (h : Diskwise work) :
    Diskwise (ExceptT.lift work : SessionM α).run :=
  h.bind fun _ => .pure

theorem diskwise_planOf {streams : Streams} : Diskwise (setup.planOf streams).run :=
  .bindM .ofWork fun _ => .pure

theorem diskwise_stagesOf {types : Except Failure TypesPlan} : Diskwise (setup.stagesOf types) :=
  .bind .onDisk fun _ => .bind .onDisk fun _ => .bind .onDisk fun _ => .pure

theorem diskwise_writeTypes {plan : TypesPlan} : Diskwise (setup.writeTypes plan).run :=
  .bindM (.lift .onDisk) fun _ => .pure

end Diskwise

/-- A run in a session and one that only recalls: they come to the same and leave the same disk. The
first one leaves a memory behind. -/
structure Alike {α : Type} (memory : Memory) (first second : α × Session) : Prop where
  result : first.1 = second.1
  disk : first.2.disk = second.2.disk
  memory : first.2.memory = memory

namespace Alike
variable {α β : Type} {memory : Memory} {first second : Session}

theorem of_diskwise {work : StateM Session α} (h : Diskwise work) (hdisk : first.disk = second.disk) :
    Alike first.memory (work.run first) (work.run second) := by
  obtain ⟨work, rfl⟩ := h
  have hrun : ∀ session, (SessionM.onDisk work).run session =
      ((work.run session.disk).1, { session with disk := (work.run session.disk).2 }) :=
    fun _ => rfl
  rw [hrun, hrun, hdisk]
  exact ⟨rfl, rfl, rfl⟩

theorem bind {work work' : StateM Session α} {next : α → StateM Session β}
    (h : Alike memory (work.run first) (work'.run second)) (hnext : ∀ a, Diskwise (next a)) :
    Alike memory ((work >>= next).run first) ((work' >>= next).run second) := by
  rw [runState_bind, runState_bind, h.result, ← h.memory]
  exact of_diskwise (hnext _) h.disk

theorem bindM {work work' : SessionM α} {next : α → SessionM β}
    (h : Alike memory (work.run.run first) (work'.run.run second))
    (hnext : ∀ a, Diskwise (next a).run) :
    Alike memory ((work >>= next).run.run first) ((work' >>= next).run.run second) :=
  h.bind (diskwise_bindCont hnext)

theorem lift {work work' : StateM Session α} (h : Alike memory (work.run first) (work'.run second)) :
    Alike memory ((ExceptT.lift work : SessionM α).run.run first)
      ((ExceptT.lift work' : SessionM α).run.run second) :=
  h.bind fun _ => .pure

end Alike

section Operations
variable {setup : Setup} {session : Session} {direction : Direction}

theorem Setup.alike_stream :
    Alike (setup.learn session.disk session.memory direction)
      ((setup.stream direction).run.run session)
      ((setup.recall session.memory direction).run.run session) := by
  rw [run_stream, run_recall]
  exact ⟨rfl, rfl, rfl⟩

theorem Setup.alike_streams : Alike (setup.learnBoth session.disk session.memory)
    (setup.streams.run.run session)
    ((streamsFrom (setup.recall session.memory)).run.run session) := by
  rw [run_streams, run_streamsFrom run_recall run_recall]
  exact ⟨rfl, rfl, rfl⟩

theorem Setup.alike_planTypes : Alike (setup.learnBoth session.disk session.memory)
    ((setup.planTypesFrom setup.stream).run.run session)
    ((setup.planTypesFrom (setup.recall session.memory)).run.run session) :=
  alike_streams.bindM fun _ => diskwise_planOf

theorem Setup.alike_behindRoot {α : Type} {work work' : SessionM α}
    (h : ∀ {ready : Session}, ready.memory = session.memory →
      Alike (setup.learnBoth ready.disk ready.memory) (work.run.run ready) (work'.run.run ready)) :
    Alike (match setup.makeOutputRoot.run.run session.disk with
        | (.ok (), ready) => setup.learnBoth ready session.memory
        | (.error _, _) => session.memory)
      ((do SessionM.ofWork setup.makeOutputRoot; work : SessionM α).run.run session)
      ((do SessionM.ofWork setup.makeOutputRoot; work' : SessionM α).run.run session) := by
  rw [run_bind, run_bind, run_ofWork]
  rcases setup.makeOutputRoot.run.run session.disk with ⟨result, ready⟩
  cases result with
  | error failure => exact ⟨rfl, rfl, rfl⟩
  | ok => exact @h { session with disk := ready } rfl

def Operation.learnt (setup : Setup) (operation : Operation) (disk : Disk) (memory : Memory) :
    Memory :=
  match operation with
  | stream direction => setup.learn disk memory direction
  | streams => setup.learnBoth disk memory
  | createTypes | build =>
    match setup.makeOutputRoot.run.run disk with
    | (.ok (), ready) => setup.learnBoth ready memory
    | (.error _, _) => memory
  | makeOutputRoot | allPackages => memory

theorem Operation.get_learnt {operation : Operation} {disk : Disk} {memory : Memory} :
    (operation.learnt setup disk memory).get direction = (memory.get direction).or
      ((operation.asks setup direction disk).bind
        fun disk => (setup.reads direction disk).toOption) := by
  unfold learnt asks
  cases operation with
  | stream other =>
    simp only
    rw [Setup.get_learn]
    split <;> simp
  | streams => exact Setup.get_learnBoth
  | createTypes | build =>
    simp only
    rcases setup.makeOutputRoot.run.run disk with ⟨result, ready⟩
    cases result with
    | error failure => simp
    | ok => exact Setup.get_learnBoth
  | makeOutputRoot | allPackages => simp

/-- An operation comes to what it would come to by recalling the streams, and leaves the disk so. It
remembers what it was the first to find. -/
theorem Operation.alike (setup : Setup) (operation : Operation) (session : Session) :
    Alike (operation.learnt setup session.disk session.memory)
      ((operation.run setup).run.run session)
      ((operation.runFrom setup (setup.recall session.memory)).run.run session) := by
  rw [run_eq_runFrom]
  cases operation with
  | stream direction => exact Setup.alike_stream
  | streams => exact Setup.alike_streams
  | createTypes =>
    refine Setup.alike_behindRoot fun {ready} hmemory => ?_
    rw [← hmemory]
    exact Setup.alike_planTypes.bindM fun _ => diskwise_writeTypes
  | build =>
    refine Setup.alike_behindRoot fun {ready} hmemory => ?_
    rw [← hmemory]
    exact (Setup.alike_planTypes.bind fun _ => diskwise_stagesOf).lift.bindM fun _ => .pure
  | makeOutputRoot => exact .of_diskwise .ofWork rfl
  | allPackages => exact .of_diskwise .ofWork rfl

end Operations

inductive Event where
  | call (operation : Operation)
  | edit (change : FileTree → FileTree)

def Event.asks (setup : Setup) (direction : Direction) (disk : Disk) : Event → Option Disk
  | .call operation => operation.asks setup direction disk
  | .edit _ => none

namespace Setup

def step (setup : Setup) (session : Session) : Event → Session
  | .call operation => ((operation.run setup).run.run session).2
  | .edit change =>
    { session with disk := { session.disk with tree := change session.disk.tree } }

def play (setup : Setup) (start : Session) (events : List Event) : Session :=
  events.foldl setup.step start

/-- What the file of a stream reads as whenever a session looks for the stream, first to last. -/
def attempts (setup : Setup) (direction : Direction) :
    Session → List Event → List (Except Failure Stream)
  | _, [] => []
  | session, event :: events =>
    ((event.asks setup direction session.disk).map (setup.reads direction)).toList ++
      setup.attempts direction (setup.step session event) events

section Sessions
variable {setup : Setup} {start session : Session} {direction : Direction} {event : Event}
  {events more : List Event}

theorem step_stream : setup.step session (.call (.stream direction)) =
    { session with memory := setup.learn session.disk session.memory direction } :=
  congrArg Prod.snd run_stream

theorem step_streams : setup.step session (.call .streams) =
    { session with memory := setup.learnBoth session.disk session.memory } :=
  congrArg Prod.snd run_streams

theorem get_step : (setup.step session event).memory.get direction =
    (session.memory.get direction).or ((event.asks setup direction session.disk).bind
      fun disk => (setup.reads direction disk).toOption) := by
  cases event with
  | call operation =>
    have halike := operation.alike setup session
    unfold step Event.asks
    simp only
    rw [halike.memory, Operation.get_learnt]
  | edit change => simp [step, Event.asks]

theorem get_play : (setup.play start events).memory.get direction =
    (start.memory.get direction).or
      ((setup.attempts direction start events).findSome? Except.toOption) := by
  induction events generalizing start with
  | nil => simp [play, attempts]
  | cons event events ih =>
    have hplay : setup.play start (event :: events) =
        setup.play (setup.step start event) events := rfl
    rw [hplay, ih, get_step, attempts, List.findSome?_append, Option.or_assoc]
    cases event.asks setup direction start.disk <;> simp

theorem play_append : setup.play start (events ++ more) =
    setup.play (setup.play start events) more := List.foldl_append

end Sessions

/-- In a session that starts with an empty memory, an operation comes to what it would come to by
taking, for each direction by itself, the first stream that could be read when the session looked
for it, or else by reading the file as it is when the operation gets to it. What is remembered
stays, whatever is done or edited later. To read a file is to read the text that it has; one without
a text is a failure at its path. -/
theorem session_recalls (setup : Setup) (disk : Disk) (events : List Event) (operation : Operation) :
    (∀ direction, (setup.play { disk } events).memory.get direction =
      (setup.attempts direction { disk } events).findSome? Except.toOption) ∧
    (∀ direction later, (setup.play { disk } (events ++ later)).memory.get direction =
      ((setup.play { disk } events).memory.get direction).or
        ((setup.attempts direction (setup.play { disk } events) later).findSome?
          Except.toOption)) ∧
    ((operation.run setup).run.run (setup.play { disk } events)).1 =
      ((operation.runFrom setup (setup.recall (setup.play { disk } events).memory)).run.run
        (setup.play { disk } events)).1 ∧
    ((operation.run setup).run.run (setup.play { disk } events)).2.disk =
      ((operation.runFrom setup (setup.recall (setup.play { disk } events).memory)).run.run
        (setup.play { disk } events)).2.disk ∧
    ∀ direction now, let path := setup.settings.sdk.declarations direction
      (∀ text : String, now.readBytes path = .ok text.toUTF8 → setup.reads direction now =
        .ok (Stream.ofText direction setup.settings.capture text)) ∧
      (∀ bytes, now.readBytes path = .ok bytes → (∀ text : String, text.toUTF8 ≠ bytes) →
        setup.reads direction now = .error (.io path .notText)) ∧
      ∀ fault, now.readBytes path = .error fault →
        setup.reads direction now = .error (.io path fault) := by
  have halike := operation.alike setup (setup.play { disk } events)
  refine ⟨fun direction => ?_, fun direction later => ?_, halike.result, halike.disk, ?_⟩
  · rw [get_play]
    cases direction <;> rfl
  · rw [play_append, get_play]
  · exact fun direction now =>
      ⟨fun _ => reads_text, fun _ => reads_notText, fun _ => reads_error⟩

section Revisions

def halfDisk : Disk := diskOf [(["output.ts", "types", "sdk"], "export namespace net \x7b\n\x7d\n")]

/-- The first stream is missing, is given and asked for again; then both are taken away. -/
def revisions : List Event :=
  [.call .streams,
    .edit (·.plant ["input.ts", "types", "sdk"] (.file "export namespace web \x7b\n\x7d\n".toUTF8)),
    .call (.stream .inputs), .edit (·.erase ["types", "sdk"])]

/-- The disk once the first stream was given. -/
def givenDisk : Disk :=
  { halfDisk with
    tree := halfDisk.tree.plant ["input.ts", "types", "sdk"]
      (.file "export namespace web \x7b\n\x7d\n".toUTF8) }

theorem reads_halfDisk : (setupOf webSettings).reads .inputs halfDisk =
    .error (.io ⟨"/sdk/types/input.ts"⟩ .notFound) := by
  have hpath : webSettings.sdk.declarations .inputs = ⟨"/sdk/types/input.ts"⟩ := by
    decide +kernel
  exact hpath ▸ @reads_error (setupOf webSettings) .inputs halfDisk .notFound (by decide +kernel)

theorem attempts_inputs_revisions :
    (setupOf webSettings).attempts .inputs { disk := halfDisk } revisions =
      [(setupOf webSettings).reads .inputs halfDisk,
        (setupOf webSettings).reads .inputs givenDisk] := by
  simp only [revisions, attempts, Event.asks, Operation.asks, step_streams]
  rfl

theorem attempts_outputs_revisions :
    (setupOf webSettings).attempts .outputs { disk := halfDisk } revisions =
      [(setupOf webSettings).reads .outputs halfDisk] := by
  simp [revisions, attempts, Event.asks, Operation.asks]

theorem disk_revisions : ((setupOf webSettings).play { disk := halfDisk } revisions).disk =
    { givenDisk with tree := givenDisk.tree.erase ["types", "sdk"] } := by
  simp only [revisions, play, List.foldl_cons, List.foldl_nil, step_streams, step_stream]
  rfl

/-- The failed attempt is made again and comes to what is there then. The second stream was
remembered beside the failure, and both stay when their files are gone. -/
theorem session_recalls_revisions :
    let setup := setupOf webSettings
    let inputs := Stream.ofText .inputs setup.settings.capture "export namespace web \x7b\n\x7d\n"
    let outputs := Stream.ofText .outputs setup.settings.capture "export namespace net \x7b\n\x7d\n"
    let session := setup.play { disk := halfDisk } revisions
    setup.attempts .inputs { disk := halfDisk } revisions =
      [.error (.io ⟨"/sdk/types/input.ts"⟩ .notFound), .ok inputs] ∧
    setup.attempts .outputs { disk := halfDisk } revisions = [.ok outputs] ∧
    session.memory.get .inputs = some inputs ∧ session.memory.get .outputs = some outputs ∧
    (∀ direction, setup.reads direction session.disk =
      .error (.io (setup.settings.sdk.declarations direction) .notFound)) ∧
    ((Operation.streams.run setup).run.run session).1 = .ok ⟨inputs, outputs⟩ := by
  intro setup inputs outputs session
  have hinputs : setup.reads .inputs givenDisk = .ok inputs := reads_text (by decide +kernel)
  have houtputs : setup.reads .outputs halfDisk = .ok outputs := reads_text (by decide +kernel)
  have hfirst : setup.attempts .inputs { disk := halfDisk } revisions =
      [.error (.io ⟨"/sdk/types/input.ts"⟩ .notFound), .ok inputs] := by
    rw [attempts_inputs_revisions, reads_halfDisk, hinputs]
  have hsecond : setup.attempts .outputs { disk := halfDisk } revisions = [.ok outputs] := by
    rw [attempts_outputs_revisions, houtputs]
  obtain ⟨hmemory, -, hresult, -, hreads⟩ := session_recalls setup halfDisk revisions .streams
  have hfound : session.memory.get .inputs = some inputs := by
    rw [hmemory, hfirst]
    rfl
  have hfound' : session.memory.get .outputs = some outputs := by
    rw [hmemory, hsecond]
    rfl
  refine ⟨hfirst, hsecond, hfound, hfound', fun direction => ?_, hresult.trans ?_⟩
  · rw [disk_revisions]
    refine (hreads direction _).2.2 _ ?_
    cases direction <;> decide +kernel
  · have hrun := @run_streamsFrom session _ _ _ _ _ (@run_recall setup session.memory .inputs session)
      (@run_recall setup session.memory .outputs session)
    unfold finds at hrun
    rw [hfound, hfound'] at hrun
    exact congrArg Prod.fst hrun

end Revisions

end Setup

end Unbundle.Build
