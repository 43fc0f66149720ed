import ProgrammableCaching.ClientContracts

/-! Where the values of a key come from. Whatever the rules of the clients do, however their
calls take turns and whatever goes wrong: no value of a key is made up, and none gets under
another key. -/

namespace ProgrammableCaching

open UnorderedMap Replicas Handler RpcInterfaces Pools Runs Contracts

variable {σ : Type} [StorageInterface σ] [LawfulStorage σ]

/-- Where the value `v` of `k` comes from: some manager held it at first, a client was asked to put
it, or a read of `k` came back without a value: empty, or with what a failed read has left. -/
inductive Origin (w : World σ) (es : List (Pools.Event RequestThread CallSeen)) (k v : String) :
    Prop
  | stored {uri : String} : w.value uri k = some v → Origin w es k v
  | put {d : RuleDb} :
      .spawn (StorageClient.putThread d { key := k, value := v }) ∈ es → Origin w es k v
  | missed {i : ℕ} {β : Type} {c : Rpc β} {f : Fault} {b : β} :
      .step i ⟨β, c, f, b⟩ ∈ es → c.Tells b k v → v = "" ∨ f.readError = some v → Origin w es k v

variable {w : World σ} {es es' : List (Pools.Event RequestThread CallSeen)} {k v : String}

theorem Origin.append (h : Origin w es k v) (es' : List (Pools.Event RequestThread CallSeen)) :
    Origin w (es ++ es') k v := by
  cases h with
  | stored h => exact .stored h
  | put h => exact .put (List.mem_append_left _ h)
  | missed h htells hv => exact .missed (List.mem_append_left _ h) htells hv

end ProgrammableCaching
