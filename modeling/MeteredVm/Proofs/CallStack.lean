import MeteredVm.Proofs.Evaluation

/-!
# MeteredVm.Proofs.CallStack

The frames of a message and what they owe to each other.

Three things grow and shrink together while a message runs: the frames, the requests in the frames
that wait, and the substates of the world. A frame keeps its message for as long as it lives, and a
frame that waits keeps its request, so the innermost frame can always be traced back, call by call,
to the message that began.

* `MessageRequest.AskedBy`: what a call of each kind asks for. A frame asks for nothing else
  (`Frame.lasting_asks`).
* `Message.AnswersTo`: the message of a child, for the request of the frame below.
* `CallStack`: frames that each answer to the one below them. `CallStack.base` follows them down.
* `CallTree.Nested`: the invariant, which `CallTree.Transition.nested` carries along;
  `Executor.frames_nested` is what it says of every point of a message.
-/

namespace MeteredVm

/-- What a call of each kind asks for when the frame that makes it runs `message`. -/
def MessageRequest.AskedBy (request : MessageRequest) (message : Message) : Prop :=
  match request.kind with
  | .call =>
    request.address = request.codeAddress ∧ request.caller = message.address ∧
      request.transferValue = request.apparentValue ∧ request.isStatic = message.isStatic
  | .delegateCall =>
    request.address = message.address ∧ request.caller = message.caller ∧
      request.transferValue = 0 ∧ request.apparentValue = message.value ∧
      request.isStatic = message.isStatic
  | .staticCall =>
    request.address = request.codeAddress ∧ request.caller = message.address ∧
      request.transferValue = 0 ∧ request.apparentValue = 0 ∧ request.isStatic = true

theorem Call.requested_askedBy (kind : CallKind) (f : Frame) (gas : Gas) :
    (requested kind f gas).AskedBy f.toMessage := by
  cases kind with
  | call => exact ⟨rfl, rfl, rfl, rfl⟩
  | delegateCall => exact ⟨rfl, rfl, rfl, rfl, rfl⟩
  | staticCall => exact ⟨rfl, rfl, rfl, rfl, rfl⟩

def Frame.Asks (f : Frame) : Prop :=
  ∀ request, f.pending = some request → request.AskedBy f.toMessage

theorem Frame.lasting_asks (c : Rules) : Frame.Lasting c Frame.Asks where
  start := by
    intro message limits request hr
    cases hr
  steps := by
    intro f f' w w' s hf _ h request hr
    rw [h.message_eq]
    rcases h.pending_cases with hp | ⟨kind, sig, cost, gas, -, hp⟩
    · exact hf request (hp.symm.trans hr)
    · obtain rfl := Option.some.inj (hp.symm.trans hr)
      exact Call.requested_askedBy kind (f.facing sig) gas
  resumed := by
    intro f request outcome gas _ _ _ request' hr
    cases hr

/-- The message of a child: the frame `parent` waits for it and has asked for it by `request`. -/
structure Message.AnswersTo (codeOf : Address → Code) (message : Message) (parent : Frame)
    (request : MessageRequest) : Prop where
  suspended : parent.status = .suspended
  pending : parent.pending = some request
  asked : request.AskedBy parent.toMessage
  code : message.code = codeOf request.codeAddress
  gas : message.initialGas = request.gas
  address : message.address = request.address
  caller : message.caller = request.caller
  value : message.value = request.apparentValue
  input : message.input = request.input
  static : message.isStatic = request.isStatic
  depth : message.depth = parent.depth + 1
  origin : message.origin = parent.origin
  gasPrice : message.gasPrice = parent.gasPrice
  block : message.block = parent.block

namespace Message.AnswersTo

variable {codeOf : Address → Code} {message : Message} {parent : Frame} {request : MessageRequest}

theorem static_of_static (h : message.AnswersTo codeOf parent request)
    (hs : parent.isStatic = true) : message.isStatic = true := by
  have hasked := h.asked
  unfold MessageRequest.AskedBy at hasked
  rw [h.static]
  cases hk : request.kind with
  | call =>
    rw [hk] at hasked
    exact hasked.2.2.2.trans hs
  | delegateCall =>
    rw [hk] at hasked
    exact hasked.2.2.2.2.trans hs
  | staticCall =>
    rw [hk] at hasked
    exact hasked.2.2.2.2

theorem delegated (h : message.AnswersTo codeOf parent request)
    (hk : request.kind = .delegateCall) :
    message.address = parent.address ∧ message.caller = parent.caller ∧
      message.value = parent.value := by
  have hasked := h.asked
  rw [MessageRequest.AskedBy, hk] at hasked
  exact ⟨h.address.trans hasked.1, h.caller.trans hasked.2.1, h.value.trans hasked.2.2.2.1⟩

end Message.AnswersTo

/-- Frames, innermost first, each of which runs for the one below it; the last runs `message`. -/
inductive CallStack (codeOf : Address → Code) (callDepth : Nat) (message : Message) :
    List Frame → Prop
  | outermost {f : Frame} (runs : f.toMessage = message) : CallStack codeOf callDepth message [f]
  | nested {child parent : Frame} {rest : List Frame} {request : MessageRequest}
    (answers : child.toMessage.AnswersTo codeOf parent request)
    (shallow : parent.depth < callDepth)
    (below : CallStack codeOf callDepth message (parent :: rest)) :
    CallStack codeOf callDepth message (child :: parent :: rest)

namespace CallStack

variable {codeOf : Address → Code} {callDepth : Nat} {message : Message} {f f' : Frame}
  {rest : List Frame}

theorem replace (h : CallStack codeOf callDepth message (f :: rest))
    (hm : f'.toMessage = f.toMessage) : CallStack codeOf callDepth message (f' :: rest) := by
  cases h with
  | outermost runs => exact .outermost (hm.trans runs)
  | nested answers shallow below => exact .nested (hm ▸ answers) shallow below

theorem start {request : MessageRequest} (limits : Limits)
    (h : CallStack codeOf callDepth message (f :: rest)) (hs : f.status = .suspended)
    (hp : f.pending = some request) (ha : request.AskedBy f.toMessage)
    (hd : f.depth < callDepth) :
    CallStack codeOf callDepth message
      (f.child request (codeOf request.codeAddress) limits :: f :: rest) :=
  .nested
    { suspended := hs
      pending := hp
      asked := ha
      code := rfl
      gas := rfl
      address := rfl
      caller := rfl
      value := rfl
      input := rfl
      static := rfl
      depth := rfl
      origin := rfl
      gasPrice := rfl
      block := rfl } hd h

theorem tail (h : CallStack codeOf callDepth message (f :: f' :: rest)) :
    CallStack codeOf callDepth message (f' :: rest) := by
  cases h with
  | nested _ _ below => exact below

theorem of_append (upper : List Frame) :
    CallStack codeOf callDepth message (upper ++ f :: rest) →
      CallStack codeOf callDepth message (f :: rest) := by
  induction upper with
  | nil => exact id
  | cons g upper ih =>
    intro h
    cases upper with
    | nil => exact h.tail
    | cons g' upper => exact ih h.tail

theorem base : ∀ {f : Frame}, CallStack codeOf callDepth message (f :: rest) →
    f.depth = message.depth + rest.length ∧ f.origin = message.origin ∧
      f.gasPrice = message.gasPrice ∧ f.block = message.block ∧
      (rest ≠ [] → f.depth ≤ callDepth) := by
  induction rest with
  | nil =>
    intro f h
    cases h with
    | outermost runs => simp [runs]
  | cons parent rest ih =>
    intro f h
    cases h with
    | nested answers shallow below =>
      obtain ⟨hdepth, horigin, hprice, hblock, -⟩ := ih below
      have hd := answers.depth
      refine ⟨?_, answers.origin.trans horigin, answers.gasPrice.trans hprice,
        answers.block.trans hblock, fun _ => ?_⟩
      · rw [hd, hdepth, List.length_cons, Nat.add_assoc]
      · rw [hd]
        exact shallow

end CallStack

structure CallTree.Nested (codeOf : Address → Code) (r : Rules) (message : Message)
    (world : World) (t : CallTree) : Prop where
  depth : t.world.depth = world.depth + t.frames.length
  codes : ∀ a, t.code a = codeOf a
  asks : ∀ f ∈ t.frames, f.Asks
  stack : CallStack codeOf r.callDepth.toNat message t.frames

theorem CallTree.Transition.nested {c r : Rules} {t t' : CallTree} {codeOf : Address → Code}
    {message : Message} {world : World} (ht : t.Nested codeOf r message world)
    (h : t.Transition c r t') : t'.Nested codeOf r message world := by
  have hasks := h.lasting (Frame.lasting_asks c) ht.asks
  obtain ⟨hdepth, hcodes, hask, hstack⟩ := ht
  cases h with
  | stepped before _ steps after codes =>
    rw [before] at hdepth hstack
    refine ⟨?_, fun a => (code_congr codes steps.base_eq a).trans (hcodes a), hasks, ?_⟩
    · rw [after, World.depth, steps.outer_eq]
      exact hdepth
    · rw [after]
      exact hstack.replace steps.message_eq
  | refused before _ _ _ _ after world codes =>
    rw [before] at hdepth hstack
    refine ⟨?_, fun a => (code_congr codes (congrArg World.base world) a).trans (hcodes a), hasks,
      ?_⟩
    · rw [after, world]
      exact hdepth
    · rw [after]
      exact hstack.replace rfl
  | started before suspended waits shallow transferred after codes =>
    rw [before] at hdepth hstack
    rw [before, List.forall_mem_cons] at hask
    refine ⟨?_, fun a => (codes a).trans (hcodes a), hasks, ?_⟩
    · rw [after, World.depth, (World.transfer_sameBelow transferred).outer]
      exact congrArg (· + 1) hdepth
    · rw [after, hcodes]
      exact hstack.start r.limits suspended waits.pending (hask.1 _ waits.pending) shallow
  | returned before _ _ _ _ left after codes =>
    rw [before] at hdepth hstack
    refine ⟨?_, fun a => (code_congr codes (World.base_leave left) a).trans (hcodes a), hasks, ?_⟩
    · have hlength := World.length_outer_leave left
      rw [after]
      simp only [World.depth, List.length_cons] at hdepth ⊢
      omega
    · rw [after]
      exact hstack.tail.replace rfl

namespace Executor

open CallTree

theorem begin_nested (r : Rules) (message : Message) (limits : Limits) (world : World)
    (codes : CodeCache) (journal : Journal) :
    (begin (Frame.start message limits) world codes journal).Nested (codes.lookup world) r message
      world where
  depth := rfl
  codes := fun _ => rfl
  asks := by simp [begin, Frame.start, Frame.Asks]
  stack := .outermost rfl

/--
At every point of a message the world has one substate for each frame on top of those that it had
before; a frame is as deep as there are frames below it, never deeper than the limit unless it is
the outermost one, and has the origin, gas price and block of the message. Every other frame waits,
and the frame above runs what it asked for: a static frame runs static frames only, and delegated
code runs with the address, caller and value of the frame that delegates.
-/
theorem frames_nested (c r : Rules) (message : Message) (limits : Limits) (world : World)
    (codes : CodeCache) (journal : Journal) (n : Nat) (t : CallTree)
    (h : run ⟨.ofRules c, r⟩ n (begin (Frame.start message limits) world codes journal) =
      .running t) :
    t.world.depth = world.depth + t.frames.length ∧
      (∀ upper f lower, t.frames = upper ++ f :: lower →
        f.depth = message.depth + lower.length ∧ f.origin = message.origin ∧
        f.gasPrice = message.gasPrice ∧ f.block = message.block ∧
        (lower ≠ [] → f.depth ≤ r.callDepth.toNat)) ∧
      ∀ upper child parent lower, t.frames = upper ++ child :: parent :: lower →
        ∃ request, child.toMessage.AnswersTo (codes.lookup world) parent request ∧
          (parent.isStatic = true → child.isStatic = true) ∧
          (request.kind = .delegateCall → child.address = parent.address ∧
            child.caller = parent.caller ∧ child.value = parent.value) := by
  have hnested := run_keeps c r (fun _ ht htransition => htransition.nested ht) n
    (begin_sound message limits world codes journal)
    (begin_nested r message limits world codes journal) h
  refine ⟨hnested.depth, ?_, ?_⟩
  · intro upper f lower hframes
    exact (CallStack.of_append upper (hframes ▸ hnested.stack)).base
  · intro upper child parent lower hframes
    cases CallStack.of_append upper (hframes ▸ hnested.stack) with
    | nested answers =>
      exact ⟨_, answers, answers.static_of_static, answers.delegated⟩

def caller : Message where
  code := Code.ofBytes
    #[0x60, 0, 0x60, 0, 0x60, 0, 0x60, 0, 0x60, 0, 0x60, 1, 0x61, 0x75, 0x30, 0xf1] 0
  initialGas := 100000
  address := 5

/-- Account 1 delegates to account 2, which does nothing. -/
def delegate : CodeCache :=
  ({} : CodeCache).insert 1
    (Code.ofBytes #[0x60, 0, 0x60, 0, 0x60, 0, 0x60, 0, 0x60, 2, 0x61, 0x27, 0x10, 0xf4] 0)

def delegating (n : Nat) : Progress :=
  run ⟨.ofRules .london, .london⟩ n (begin (Frame.start caller {}) { base := {} } delegate [])

set_option maxRecDepth 8000 in
theorem delegating_starts : (delegating 17).outcome? = none ∧ (delegating 17).failure? = none ∧
    ((delegating 17).tree.frames.map fun f => f.pending.map (·.kind)) =
      [none, some .delegateCall, some .call] := by
  decide +kernel

/-- The code of account 2 runs in the name of account 1, three substates deep. -/
theorem frames_nested_delegating : ∃ t child parent outermost request,
    delegating 17 = .running t ∧ t.world.depth = 3 ∧ t.frames = [child, parent, outermost] ∧
    child.depth = 2 ∧ child.toMessage.AnswersTo (delegate.lookup { base := {} }) parent request ∧
    child.address = parent.address := by
  obtain ⟨houtcome, hfailure, hkinds⟩ := delegating_starts
  have hrun := Progress.eq_running houtcome hfailure
  generalize (delegating 17).tree = t at hrun hkinds
  obtain ⟨child, below, hframes, -, hbelow⟩ := List.map_eq_cons_iff.mp hkinds
  obtain ⟨parent, below, rfl, hkind, hbelow⟩ := List.map_eq_cons_iff.mp hbelow
  obtain ⟨outermost, rfl, -⟩ := List.map_eq_singleton_iff.mp hbelow
  obtain ⟨hdepth, hbase, hpairs⟩ :=
    frames_nested .london .london caller {} { base := {} } delegate [] 17 t hrun
  obtain ⟨request, hanswers, -, hdelegated⟩ := hpairs [] child parent [outermost] hframes
  rw [hanswers.pending, Option.map_some, Option.some.injEq] at hkind
  rw [hframes] at hdepth
  exact ⟨t, child, parent, outermost, request, hrun, hdepth, hframes,
    (hbase [] child [parent, outermost] hframes).1, hanswers, (hdelegated hkind).1⟩

end Executor

end MeteredVm
