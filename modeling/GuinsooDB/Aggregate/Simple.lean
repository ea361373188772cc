import GuinsooDB.Aggregate.HashTable

/-!
`PhysicalSimpleAggregate`: all aggregates of the list share one executor, one payload chunk and
its cardinality. A filter redirects them to a chunk that lives as long as its own aggregate.
-/

namespace GuinsooDB

open List Option Function
open List (range range' zipWith mem_cons_self map_cons)

structure AggregateInput (Row : Type) where
  children : List (Row → Cell)
  filter : Option (Row → Bool)

/-- The chunk that the executor points at. The chunk of a filter is destroyed at the end of the
iteration that made it. -/
inductive ChunkPointer (Row : Type) where
  | live (rows : List Row)
  | dangling

structure SinkLoop (Row : Type) where
  chunk : ChunkPointer Row
  cardinality : Nat
  payloadIdx : Nat

namespace SimpleAggregate

variable {Row State : Type}

abbrev Aggregates (Row State : Type) := List (AggregateInput Row × AggregateFunction (List Cell) State)

variable (aggregates : Aggregates Row State)

def expressions : List (Row → Cell) :=
  aggregates.flatMap fun aggregate => aggregate.1.children

def executeExpression (expressions : List (Row → Cell)) (chunk : ChunkPointer Row) (index : Nat) :
    Option (List Cell) :=
  match chunk, expressions[index]? with
  | .live rows, some expression => some (rows.map expression)
  | _, _ => none

def payload (columns : List (List Cell)) (cardinality : Nat) : Option (List (List Cell)) :=
  (range cardinality).mapM fun row => columns.mapM fun column => column[row]?

def redirect (input : List Row) (filter : Option (Row → Bool)) (loop : SinkLoop Row) : SinkLoop Row :=
  match filter with
  | none => loop
  | some selects =>
    { loop with chunk := .live (input.filter selects), cardinality := (input.filter selects).length }

def leave (filter : Option (Row → Bool)) (children : Nat) (loop : SinkLoop Row) : SinkLoop Row :=
  { loop with
    chunk := if filter.isSome then .dangling else loop.chunk
    payloadIdx := loop.payloadIdx + children }

def sinkLoop (expressions : List (Row → Cell)) (input : List Row) :
    SinkLoop Row → Aggregates Row State → List State → Option (List State)
  | loop, (aggregate, function) :: rest, state :: states => do
      let loop := redirect input aggregate.filter loop
      let columns ← (range' loop.payloadIdx aggregate.children.length).mapM
        (executeExpression expressions loop.chunk)
      let arguments ← payload columns loop.cardinality
      let later ← sinkLoop expressions input
        (leave aggregate.filter aggregate.children.length loop) rest states
      return arguments.foldl function.update state :: later
  | _, _, _ => some []

def sink (states : List State) (input : List Row) : Option (List State) :=
  sinkLoop (expressions aggregates) input ⟨.live input, input.length, 0⟩ aggregates states

def fresh : List State :=
  aggregates.map fun aggregate => aggregate.2.initial

def sinkLocal (chunks : List (List Row)) : Option (List State) :=
  chunks.foldlM (sink aggregates) (fresh aggregates)

def combine (global source : List State) : List State :=
  zipWith (fun (aggregate : AggregateInput Row × AggregateFunction (List Cell) State)
    (states : State × State) => aggregate.2.combine states.1 states.2) aggregates (global.zip source)

end SimpleAggregate

/-- The chunks of each task. Aggregates that cannot all be combined are computed by one task. -/
inductive SimpleAggregateInput (Row : Type) where
  | parallel (tasks : List (List (List Row)))
  | single (chunks : List (List Row))

namespace SimpleAggregateInput

variable {Row State : Type}

open SimpleAggregate

def execute (aggregates : Aggregates Row State) : SimpleAggregateInput Row → Option (List State)
  | .parallel tasks => tasks.foldlM (fun global chunks =>
    (sinkLocal aggregates chunks).map (combine aggregates global)) (fresh aggregates)
  | .single chunks => sinkLocal aggregates chunks

def chunks : SimpleAggregateInput Row → List (List Row)
  | .parallel tasks => tasks.flatten
  | .single chunks => chunks

end SimpleAggregateInput

namespace SimpleAggregate

variable {Row State : Type} {input : List Row} {aggregate : AggregateInput Row}
  {previous : Option (Row → Bool)}

/-! One aggregate and one chunk -/

def arguments (aggregate : AggregateInput Row) (rows : List Row) : List (List Cell) :=
  (rows.filter (aggregate.filter.getD fun _ => true)).map fun row =>
    aggregate.children.map fun child => child row

def loopAfter (previous : Option (Row → Bool)) (input : List Row) (payloadIdx : Nat) : SinkLoop Row :=
  match previous with
  | none => ⟨.live input, input.length, payloadIdx⟩
  | some selects => ⟨.dangling, (input.filter selects).length, payloadIdx⟩

/-- The arguments with which an aggregate is updated: without a filter of its own it gets the
number of rows that the last filter has selected. -/
def fed (previous : Option (Row → Bool)) (aggregate : AggregateInput Row) (input : List Row) :
    Option (List (List Cell)) :=
  match aggregate.filter, previous with
  | none, some selects =>
    if aggregate.children = [] then some (replicate (input.filter selects).length []) else none
  | _, _ => some (arguments aggregate input)

theorem mapM_eq_map {Element Result : Type} {list : List Element} {partial' : Element → Option Result}
    {total : Element → Result} (agrees : ∀ element ∈ list, partial' element = some (total element)) :
    list.mapM partial' = some (list.map total) := by
  induction list with
  | nil => rfl
  | cons first rest ih =>
    rw [mapM_cons, agrees first mem_cons_self, ih fun element there => agrees element (mem_cons_of_mem first there)]
    rfl

variable {more : List (Row → Cell)} {expressions : List (Row → Cell)} {rows : List Row}

theorem columns_live {children : List (Row → Cell)} {index : Nat} (rest : expressions.drop index = children ++ more) :
    (range' index children.length).mapM (executeExpression expressions (.live rows)) =
      some (children.map fun child => rows.map child) := by
  induction children generalizing index with
  | nil => rfl
  | cons child children ih =>
    have found : expressions[index]? = some child := by
      rw [← head?_drop, rest]
      rfl
    have later : expressions.drop (index + 1) = children ++ more := by
      rw [← tail_drop, rest]
      rfl
    have column : executeExpression expressions (.live rows) index = some (rows.map child) := by
      simp [executeExpression, found]
    rw [length_cons, range'_succ, mapM_cons, ih later, column]
    rfl

theorem payload_live (children : List (Row → Cell)) (rows : List Row) :
    payload (children.map fun child => rows.map child) rows.length =
      some (rows.map fun row => children.map fun child => child row) := by
  have cells : ∀ index ∈ range rows.length,
      (children.map fun child => rows.map child).mapM (fun column => column[index]?) =
        some ((rows[index]?).elim [] fun row => children.map fun child => child row) := by
    intro index there
    have inside := mem_range.mp there
    rw [mapM_map, getElem?_eq_getElem inside]
    refine mapM_eq_map fun child _ => ?_
    simp [inside]
  rw [payload, mapM_eq_map cells]
  refine congrArg some (ext_getElem (by simp) fun index inside _ => ?_)
  have bound : index < rows.length := by simpa using inside
  simp [bound]

theorem payload_nil (count : Nat) : payload [] count = some (replicate count []) := by
  have cells : ∀ row ∈ range count,
      ([] : List (List Cell)).mapM (fun column => column[row]?) = some [] := fun _ _ => rfl
  rw [payload, mapM_eq_map cells]
  simp

theorem leave_redirect (payloadIdx children : Nat) :
    leave aggregate.filter children (redirect input aggregate.filter (loopAfter previous input payloadIdx)) =
      loopAfter (aggregate.filter.or previous) input (payloadIdx + children) := by
  cases filter : aggregate.filter with
  | none =>
    cases previous <;> simp [leave, redirect, loopAfter]
  | some selects =>
    cases previous <;> simp [leave, redirect, loopAfter]

variable {payloadIdx : Nat}

theorem arguments_fed (rest : expressions.drop payloadIdx = aggregate.children ++ more) :
    ((range' payloadIdx aggregate.children.length).mapM (executeExpression expressions
      (redirect input aggregate.filter (loopAfter previous input payloadIdx)).chunk)).bind
      (fun columns => payload columns
        (redirect input aggregate.filter (loopAfter previous input payloadIdx)).cardinality) =
      fed previous aggregate input := by
  cases filter : aggregate.filter with
  | some selects =>
    simp only [redirect, fed, filter]
    rw [columns_live rest]
    simp [payload_live, arguments, filter]
  | none =>
    cases previous with
    | none =>
      simp only [redirect, loopAfter, fed, filter]
      rw [columns_live rest]
      simp [payload_live, arguments, filter]
    | some selects =>
      simp only [redirect, loopAfter, fed, filter]
      cases children : aggregate.children with
      | nil => simp [payload_nil]
      | cons child children =>
        simp [range'_succ, mapM_cons, executeExpression]

theorem sinkLoop_cons {function : AggregateFunction (List Cell) State} {rest : Aggregates Row State} {state : State}
    {states : List State} (left : expressions.drop payloadIdx = aggregate.children ++ more) :
    sinkLoop expressions input (loopAfter previous input payloadIdx) ((aggregate, function) :: rest) (state :: states) =
      (fed previous aggregate input).bind fun arguments =>
        (sinkLoop expressions input (loopAfter (aggregate.filter.or previous) input
          (payloadIdx + aggregate.children.length)) rest states).map (arguments.foldl function.update state :: ·) := by
  have index : (redirect input aggregate.filter (loopAfter previous input payloadIdx)).payloadIdx =
      payloadIdx := by
    cases aggregate.filter <;> cases previous <;> rfl
  rw [← arguments_fed left, sinkLoop, leave_redirect, index, bind_assoc]
  simp only [map_eq_bind]
  rfl

/-! All aggregates -/

def updated (aggregate : AggregateInput Row × AggregateFunction (List Cell) State)
    (rows : List Row) : State :=
  (arguments aggregate.1 rows).foldl aggregate.2.update aggregate.2.initial

/-- No aggregate without a filter stands after one with a filter, or it has no arguments and the
last filter before it selects every row. -/
def Undisturbed (chunks : List (List Row)) :
    Option (Row → Bool) → List (AggregateInput Row) → Prop
  | _, [] => True
  | previous, aggregate :: rest =>
    (aggregate.filter = none → ∀ selects, previous = some selects → ∀ chunk ∈ chunks,
      aggregate.children = [] ∧ ∀ row ∈ chunk, selects row = true) ∧
    Undisturbed chunks (aggregate.filter.or previous) rest

theorem arguments_append (aggregate : AggregateInput Row) (rows others : List Row) :
    arguments aggregate (rows ++ others) = arguments aggregate rows ++ arguments aggregate others := by
  simp [arguments]

theorem fed_of_undisturbed (undisturbed : aggregate.filter = none → ∀ selects,
    previous = some selects → aggregate.children = [] ∧ ∀ row ∈ input, selects row = true) :
    fed previous aggregate input = some (arguments aggregate input) := by
  cases filter : aggregate.filter with
  | some selects => simp [fed, filter]
  | none =>
    cases previous with
    | none => simp [fed, filter]
    | some selects =>
      obtain ⟨children, all⟩ := undisturbed filter selects rfl
      have whole : input.filter selects = input := filter_eq_self.mpr all
      simp [fed, filter, children, whole, arguments, map_const']

variable {aggregates : Aggregates Row State} {chunks : List (List Row)}

theorem sinkLoop_undisturbed (given : input ∈ chunks)
    (left : expressions.drop payloadIdx = SimpleAggregate.expressions aggregates)
    (undisturbed : Undisturbed chunks previous (aggregates.map Prod.fst)) :
    sinkLoop expressions input (loopAfter previous input payloadIdx) aggregates
      (aggregates.map fun aggregate => updated aggregate rows) =
      some (aggregates.map fun aggregate => updated aggregate (rows ++ input)) := by
  induction aggregates generalizing previous payloadIdx with
  | nil => rfl
  | cons first rest ih =>
    obtain ⟨aggregate, function⟩ := first
    obtain ⟨here, later⟩ := undisturbed
    have drops : expressions.drop payloadIdx = aggregate.children ++ SimpleAggregate.expressions rest := left
    have after : expressions.drop (payloadIdx + aggregate.children.length) = SimpleAggregate.expressions rest := by
      rw [← drop_drop, drops, drop_left]
    rw [map_cons, sinkLoop_cons drops, ih after later,
      fed_of_undisturbed fun filter selects before => here filter selects before input given]
    simp [updated, arguments_append]

theorem foldlM_updated {Item : Type} (rowsOf : Item → List Row) {step : List State → Item → Option (List State)}
    {items : List Item} (steps : ∀ item ∈ items, ∀ rows, step (aggregates.map (updated · rows)) item =
      some (aggregates.map (updated · (rows ++ rowsOf item)))) (rows : List Row) :
    items.foldlM step (aggregates.map (updated · rows)) =
      some (aggregates.map (updated · (rows ++ items.flatMap rowsOf))) := by
  induction items generalizing rows with
  | nil => simp
  | cons item rest ih =>
    rw [foldlM_cons, steps item mem_cons_self, flatMap_cons, ← append_assoc]
    exact ih (fun other there => steps other (mem_cons_of_mem item there)) _

theorem sinkLocal_undisturbed {chunks all : List (List Row)} (inside : ∀ chunk ∈ chunks, chunk ∈ all)
    (undisturbed : Undisturbed all none (aggregates.map Prod.fst)) : sinkLocal aggregates chunks =
      some (aggregates.map fun aggregate => updated aggregate chunks.flatten) := by
  rw [← flatMap_id]
  exact foldlM_updated id (fun chunk there rows =>
    sinkLoop_undisturbed (inside chunk there) drop_zero undisturbed) []

def Combines (function : AggregateFunction (List Cell) State) : Prop :=
  ∀ first second : List (List Cell), function.combine (first.foldl function.update function.initial)
      (second.foldl function.update function.initial) =
      (first ++ second).foldl function.update function.initial

theorem combine_updated (combines : ∀ aggregate ∈ aggregates, Combines aggregate.2) (rows others : List Row) :
    combine aggregates (aggregates.map fun aggregate => updated aggregate rows)
      (aggregates.map fun aggregate => updated aggregate others) =
      aggregates.map fun aggregate => updated aggregate (rows ++ others) := by
  induction aggregates with
  | nil => rfl
  | cons first rest ih =>
    have tail := ih fun aggregate there => combines aggregate (mem_cons_of_mem first there)
    simp only [combine, map_cons, zip_cons_cons, zipWith_cons_cons] at tail ⊢
    rw [tail, updated, updated, combines first mem_cons_self, updated, arguments_append]

/-! The other direction: a function that keeps what it is given -/

def collecting : AggregateFunction (List Cell) (List (List Cell)) where
  initial := []
  update := fun state row => state ++ [row]
  combine := fun state other => state ++ other

theorem collecting_foldl (state rows : List (List Cell)) : rows.foldl collecting.update state = state ++ rows := by
  induction rows generalizing state with
  | nil => simp
  | cons row rest ih =>
    rw [foldl_cons, ih]
    simp [collecting]

theorem collecting_combines : Combines collecting := by
  intro first second
  simp [collecting]

def collected (shapes : List (AggregateInput Row)) : Aggregates Row (List (List Cell)) :=
  shapes.map fun shape => (shape, collecting)

def Feeds (chunks : List (List Row)) :
    Option (Row → Bool) → List (AggregateInput Row) → List (List (List Cell)) → Prop
  | _, [], outputs => outputs = []
  | previous, aggregate :: rest, outputs => ∃ given later,
      chunks.mapM (fed previous aggregate) = some given ∧ outputs = given.flatten :: later ∧
        Feeds chunks (aggregate.filter.or previous) rest later

variable {shapes : List (AggregateInput Row)}

theorem Feeds.append {chunks others : List (List Row)} {first second : List (List (List Cell))}
    (feeds : Feeds chunks previous shapes first) (feedsOthers : Feeds others previous shapes second) :
    Feeds (chunks ++ others) previous shapes (zipWith (· ++ ·) first second) := by
  induction shapes generalizing previous first second with
  | nil =>
    rw [feeds, feedsOthers]
    rfl
  | cons shape rest ih =>
    obtain ⟨given, later, fedAll, rfl, feedsLater⟩ := feeds
    obtain ⟨given', later', fedOthers, rfl, feedsLater'⟩ := feedsOthers
    refine ⟨given ++ given', zipWith (· ++ ·) later later', ?_, ?_, ih feedsLater feedsLater'⟩
    · rw [mapM_append, fedAll, fedOthers]
      rfl
    · simp

variable {outputs : List (List (List Cell))}

theorem Feeds.length (feeds : Feeds chunks previous shapes outputs) : outputs.length = shapes.length := by
  induction shapes generalizing previous outputs with
  | nil =>
    rw [show outputs = [] from feeds]
    rfl
  | cons shape rest ih =>
    obtain ⟨_, later, _, rfl, feedsLater⟩ := feeds
    simp [ih feedsLater]

theorem Feeds.nil (previous : Option (Row → Bool)) (shapes : List (AggregateInput Row)) :
    Feeds [] previous shapes (shapes.map fun _ => []) := by
  induction shapes generalizing previous with
  | nil => rfl
  | cons shape rest ih => exact ⟨[], _, rfl, rfl, ih _⟩

theorem sinkLoop_feeds {states : List (List (List Cell))}
    (left : expressions.drop payloadIdx = SimpleAggregate.expressions (collected shapes))
    (count : states.length = shapes.length)
    (sunk : sinkLoop expressions input (loopAfter previous input payloadIdx) (collected shapes) states = some outputs) :
    ∃ added, Feeds [input] previous shapes added ∧ outputs = zipWith (· ++ ·) states added := by
  induction shapes generalizing previous payloadIdx states outputs with
  | nil =>
    refine ⟨[], rfl, ?_⟩
    rw [zipWith_nil_right]
    exact (some.inj sunk).symm
  | cons shape rest ih =>
    cases states with
    | nil => cases count
    | cons state states =>
      have drops : expressions.drop payloadIdx = shape.children ++ SimpleAggregate.expressions (collected rest) := left
      have after : expressions.drop (payloadIdx + shape.children.length) =
          SimpleAggregate.expressions (collected rest) := by
        rw [← drop_drop, drops, drop_left]
      rw [collected, map_cons, sinkLoop_cons drops] at sunk
      obtain ⟨arguments, fedHere, mapped⟩ := bind_eq_some_iff.mp sunk
      obtain ⟨later, sunkLater, rfl⟩ := map_eq_some_iff.mp mapped
      obtain ⟨added, feeds, rfl⟩ := ih after (Nat.succ.inj count) sunkLater
      refine ⟨arguments :: added, ⟨[arguments], added, ?_, ?_, feeds⟩, ?_⟩
      · rw [mapM_cons, fedHere]
        rfl
      · simp
      · rw [collecting_foldl]
        rfl

/-- The states always hold what the chunks so far have fed. -/
theorem feeds_foldlM {Item : Type} (chunksOf : Item → List (List Row))
    {step : List (List (List Cell)) → Item → Option (List (List (List Cell)))} {items : List Item}
    (steps : ∀ {states next item}, states.length = shapes.length → step states item = some next →
      ∃ added, Feeds (chunksOf item) none shapes added ∧ next = zipWith (· ++ ·) states added)
    (ran : items.foldlM step (fresh (collected shapes)) = some outputs) :
    Feeds (items.flatMap chunksOf) none shapes outputs := by
  have run : ∀ before states, Feeds before none shapes states → items.foldlM step states = some outputs →
      Feeds (before ++ items.flatMap chunksOf) none shapes outputs := by
    clear ran
    induction items with
    | nil =>
      intro before states feeds ended
      rw [flatMap_nil, append_nil, ← some.inj ended]
      exact feeds
    | cons item rest ih =>
      intro before states feeds ran
      obtain ⟨next, stepped, ranRest⟩ := bind_eq_some_iff.mp ran
      obtain ⟨added, fedItem, rfl⟩ := steps feeds.length stepped
      rw [flatMap_cons, ← append_assoc]
      exact ih _ _ (feeds.append fedItem) ranRest
  refine run [] _ ?_ ran
  rw [fresh, collected, List.map_map]
  exact Feeds.nil none shapes

theorem sinkLocal_feeds (sunk : sinkLocal (collected shapes) chunks = some outputs) :
    Feeds chunks none shapes outputs := by
  have ran := feeds_foldlM (fun chunk => [chunk])
    (fun count (looped : sink _ _ _ = _) => sinkLoop_feeds drop_zero count looped) sunk
  rwa [flatMap_singleton'] at ran

theorem combine_collected {shapes : List (AggregateInput Row)}
    {global source : List (List (List Cell))} (count : global.length = shapes.length) :
    combine (collected shapes) global source = zipWith (· ++ ·) global source := by
  induction shapes generalizing global source with
  | nil =>
    rw [length_eq_zero_iff.mp count]
    rfl
  | cons shape rest ih =>
    cases global with
    | nil => cases count
    | cons state global =>
      cases source with
      | nil => rfl
      | cons other source =>
        have tail := @ih global source (Nat.succ.inj count)
        simp only [combine, collected, map_cons, zip_cons_cons, zipWith_cons_cons] at tail ⊢
        rw [tail]
        rfl

end SimpleAggregate

namespace SimpleAggregateInput

open SimpleAggregate

variable {Row : Type} {shapes : List (AggregateInput Row)} {input : SimpleAggregateInput Row}

theorem execute_feeds {outputs : List (List (List Cell))} (executed : input.execute (collected shapes) = some outputs) :
    Feeds input.chunks none shapes outputs := by
  cases input with
  | single chunks => exact sinkLocal_feeds executed
  | parallel tasks =>
    have ran := feeds_foldlM id (fun count mapped => by
      obtain ⟨source, sunkTask, rfl⟩ := map_eq_some_iff.mp mapped
      exact ⟨source, sinkLocal_feeds sunkTask, combine_collected count⟩) executed
    rwa [flatMap_id] at ran

end SimpleAggregateInput

namespace SimpleAggregate

variable {Row : Type} {shapes : List (AggregateInput Row)} {chunks : List (List Row)}
  {previous : Option (Row → Bool)} {aggregate : AggregateInput Row} {selects : Row → Bool}

theorem fed_all {given : List (List (List Cell))} (filter : aggregate.filter = none)
    (fedAll : chunks.mapM (fed (some selects) aggregate) = some given) :
    (∀ chunk ∈ chunks, aggregate.children = []) ∧ given.flatten.length = (chunks.flatten.filter selects).length := by
  induction chunks generalizing given with
  | nil =>
    obtain rfl : [] = given := some.inj fedAll
    simp
  | cons chunk rest ih =>
    rw [mapM_cons] at fedAll
    obtain ⟨first, fedFirst, bound⟩ := bind_eq_some_iff.mp fedAll
    obtain ⟨later, fedLater, made⟩ := bind_eq_some_iff.mp bound
    obtain rfl : first :: later = given := some.inj made
    obtain ⟨_, lengths⟩ := ih fedLater
    by_cases children : aggregate.children = []
    · simp only [fed, filter, children, if_true, some.injEq] at fedFirst
      refine ⟨fun _ _ => children, ?_⟩
      simp [← fedFirst, lengths]
    · simp [fed, filter, children] at fedFirst

theorem undisturbed_of_feeds
    (feeds : Feeds chunks previous shapes (shapes.map fun shape => arguments shape chunks.flatten)) :
    Undisturbed chunks previous shapes := by
  induction shapes generalizing previous with
  | nil => trivial
  | cons shape rest ih =>
    obtain ⟨given, later, fedAll, outputs, feedsLater⟩ := feeds
    obtain ⟨here, there⟩ := cons.inj outputs
    refine ⟨fun filter selects before chunk inside => ?_, ih (there ▸ feedsLater)⟩
    rw [before] at fedAll
    obtain ⟨children, lengths⟩ := fed_all filter fedAll
    refine ⟨children chunk inside, fun row present => ?_⟩
    rw [← here] at lengths
    simp only [arguments, filter, getD_none, filter_true, length_map] at lengths
    exact length_filter_eq_length_iff.mp lengths.symm row (mem_flatten.mpr ⟨chunk, inside, present⟩)

end SimpleAggregate

namespace SimpleAggregateInput

open SimpleAggregate

variable {Row : Type}

def Combinable {State : Type} (aggregates : Aggregates Row State) : SimpleAggregateInput Row → Prop
  | .parallel _ => ∀ aggregate ∈ aggregates, Combines aggregate.2
  | .single _ => True

theorem execute_updated {State : Type} {aggregates : Aggregates Row State}
    {input : SimpleAggregateInput Row} (combinable : Combinable aggregates input)
    (undisturbed : Undisturbed input.chunks none (aggregates.map Prod.fst)) :
    input.execute aggregates = some (aggregates.map fun aggregate => updated aggregate input.chunks.flatten) := by
  cases input with
  | single chunks => exact sinkLocal_undisturbed (fun _ there => there) undisturbed
  | parallel tasks =>
    rw [chunks, flatten_flatten]
    refine foldlM_updated flatten (fun task there rows => ?_) []
    have among : ∀ chunk ∈ task, chunk ∈ tasks.flatten := fun chunk listed =>
      mem_flatten.mpr ⟨task, there, listed⟩
    rw [sinkLocal_undisturbed among undisturbed, map_some, combine_updated combinable]

/-- For every choice of the aggregate functions, each state is that of the rows which the filter
of its own aggregate selects, exactly when no aggregate is disturbed by a filter before it. -/
theorem execute_updated_iff (shapes : List (AggregateInput Row)) (input : SimpleAggregateInput Row) :
    (∀ (State : Type) (aggregates : Aggregates Row State), aggregates.map Prod.fst = shapes →
      Combinable aggregates input → input.execute aggregates =
        some (aggregates.map fun aggregate => updated aggregate input.chunks.flatten)) ↔
    Undisturbed input.chunks none shapes := by
  constructor
  · intro correct
    have shaped : (collected shapes).map Prod.fst = shapes := by
      simp [collected, comp_def]
    have combinable : Combinable (collected shapes) input := by
      cases input with
      | single => trivial
      | parallel =>
        intro aggregate there
        obtain ⟨shape, _, rfl⟩ := mem_map.mp there
        exact collecting_combines
    have feeds := execute_feeds (correct _ (collected shapes) shaped combinable)
    refine undisturbed_of_feeds ?_
    have kept : ∀ shape : AggregateInput Row, updated (shape, collecting) input.chunks.flatten =
        arguments shape input.chunks.flatten := by
      intro shape
      rw [updated, collecting_foldl]
      rfl
    simpa only [collected, List.map_map, comp_def, kept] using feeds
  · rintro undisturbed State aggregates rfl combinable
    exact execute_updated combinable undisturbed

def countsWithFilter : List (AggregateInput Bool) :=
  [⟨[], some fun row => row⟩, ⟨[], none⟩]

def counting : AggregateFunction (List Cell) Nat where
  initial := 0
  update := fun state _ => state + 1
  combine := fun state other => state + other

def countOfColumn : List (AggregateInput Bool) :=
  [⟨[], some fun row => row⟩, ⟨[fun row => some (.number (if row then 1 else 0))], none⟩]

theorem execute_not_updated : ((SimpleAggregateInput.single [[true, false]]).execute
        (countsWithFilter.map fun shape => (shape, counting)) = some [1, 1] ∧
      (countsWithFilter.map fun shape => updated (shape, counting) [true, false]) = [1, 2]) ∧
    (SimpleAggregateInput.single [[true, false]]).execute
        (countOfColumn.map fun shape => (shape, counting)) = none ∧
      (countOfColumn.map fun shape => updated (shape, counting) [true, false]) = [1, 2] := by
  decide

end SimpleAggregateInput

end GuinsooDB
