import Memento.Server

/-! `MementoPlugin::unload` (`mementoasplugin.cpp`) and the destructors it runs, in the order of their statements. The
    workers go on until the pool is joined. -/

namespace Memento

/-- What `load` made, by the members that point to it. -/
inductive Component where
  | mementoSproutlet
  | loadMonitor
  | threadPool
  | callListStoreProcessor
  | httpNotifier
  | cassResolver
  | callListStore
  | cassCommMonitor
  deriving DecidableEq, Repr

inductive Teardown where
  | delete (c : Component)
  | stop
  | join
  deriving DecidableEq, Repr

/-- `~CallListStoreProcessor`. Its statistics go with it. -/
def deleteProcessor : List Teardown := [.stop, .join, .delete .threadPool, .delete .callListStoreProcessor]

/-- `~MementoAppServer`. -/
def deleteAppServer : List Teardown := .delete .loadMonitor :: (deleteProcessor ++ [.delete .httpNotifier])

/-- `unload`. -/
def unload : List Teardown :=
  .delete .mementoSproutlet ::
    (deleteAppServer ++ [.delete .cassResolver, .delete .callListStore, .delete .cassCommMonitor])

/-- What the next step of a worker calls. The pool holds the configuration and the queue, the store its resolver and its
    monitor, and the processor the statistics. -/
def WorkerState.uses (config : PoolConfig) : WorkerState → List Component
  | .idle => [.threadPool]
  | .starting _ => [.threadPool]
  | .writing _ _ => [.threadPool, .callListStore, .cassResolver, .cassCommMonitor]
  | .counting _ _ => [.threadPool, .callListStoreProcessor]
  | .sampling _ _ => [.threadPool]
  | .reading _ _ => [.threadPool, .callListStore, .cassResolver, .cassCommMonitor, .callListStoreProcessor]
  | .trimming _ _ _ => [.threadPool, .callListStore, .cassResolver, .cassCommMonitor]
  | .notifying _ => if config.httpNotifier then [.threadPool, .httpNotifier] else [.threadPool]
  | .completing _ => [.threadPool, .loadMonitor]

/-- The pool, the statements that are left, what was deleted, and whether the threads have ended. -/
structure Unloading (W σ : Type) where
  pool : Pool W σ
  rest : List Teardown
  deleted : List Component
  joined : Bool

variable {W σ : Type}

def Unloading.begin (statements : List Teardown) (pool : Pool W σ) : Unloading W σ := ⟨pool, statements, [], false⟩

/-- A statement, or a step of a worker. The threads end between requests; whether one that is stopped takes another
    request first is left open. -/
inductive UnloadStep [DecidableEq W] (config : PoolConfig) (outside : Outside σ) (s : Unloading W σ) : Unloading W σ → Prop
  | delete {c rest} (hr : s.rest = .delete c :: rest) :
      UnloadStep config outside s { s with rest, deleted := s.deleted ++ [c] }
  | stop {rest} (hr : s.rest = .stop :: rest) : UnloadStep config outside s { s with rest }
  | join {rest} (hr : s.rest = .join :: rest) (hidle : ∀ w, s.pool.worker w = .idle) :
      UnloadStep config outside s { s with rest, joined := true }
  | work {p : Pool W σ} (hj : s.joined = false) (hp : WorkerStep config outside s.pool p) :
      UnloadStep config outside s { s with pool := p }

/-- A thread is about to call what is deleted. -/
def Unloading.Dangles (config : PoolConfig) (s : Unloading W σ) (c : Component) : Prop :=
  s.joined = false ∧ c ∈ s.deleted ∧ ∃ w, c ∈ (s.pool.worker w).uses config

end Memento
