import HashTrie.Map.Iteration

/-!
# Equality, equivalence and hashes of maps

Maps of different counts differ, and maps that share a root are equal, whatever they hold. Otherwise
each entry of the one map must be found in the other with the same value. Equality compares the
values by `==`, the other map's value on the left; equivalence compares them by `equiv`, the other
map's value on the right. Metadata is never looked at.

A map hashes like the unordered collection of its entries. Its pairwise hash is the sum, over the
entries, of the exclusive or of the key's and the value's hash. Both are remembered when asked for.
-/

namespace HashTrie.Map

variable {K V : Type}

/-- Whether two maps have the same keys, with values that `same` accepts. -/
def agrees [HashEquiv K] (same : V → V → Bool) (m o : Map K V) : Bool :=
  if m.count ≠ o.count then false
  else if m.sharesRoot o then true
  else m.toList.all fun e =>
    match o.get? (Probe.ofKey e.key) with
    | none => false
    | some value => same e.value value

@[simp] theorem sharesRoot_self (m : Map K V) : m.sharesRoot m = true := beq_self_eq_true _

/-- Maps that share a root agree, whatever they hold. -/
theorem agrees_of_sharesRoot [HashEquiv K] (same : V → V → Bool) {m o : Map K V}
    (hcount : m.count = o.count) (hs : m.sharesRoot o = true) : m.agrees same o = true := by
  rw [agrees, if_neg (fun h => h hcount), if_pos hs]

/-- A map agrees with itself, even where its values do not. -/
@[simp] theorem agrees_self [HashEquiv K] (same : V → V → Bool) (m : Map K V) :
    m.agrees same m = true :=
  agrees_of_sharesRoot same rfl m.sharesRoot_self

/-- Maps are equal when they have the same keys with equal values. -/
instance [HashEquiv K] [BEq V] : BEq (Map K V) :=
  ⟨agrees fun mine other => other == mine⟩

/-- The hash of the entries, whatever their order. -/
def hashOfEntries [HashEquiv K] [HashEquiv V] (es : List (Entry K V)) : UInt32 :=
  Murmur.unordered (es.map HashEquiv.hash)

/-- The sum of the exclusive ors of key and value hashes. -/
def pairHashOfEntries [HashEquiv K] [HashEquiv V] (es : List (Entry K V)) : UInt32 :=
  Murmur.unorderedSum (es.map fun e => HashEquiv.hash e.key ^^^ HashEquiv.hash e.value)

/-- The map's hash. -/
def hash [HashEquiv K] [HashEquiv V] (m : Map K V) : UInt32 :=
  m.hashCache.getD (hashOfEntries m.toList)

/-- The map's pairwise hash. -/
def pairHash [HashEquiv K] [HashEquiv V] (m : Map K V) : UInt32 :=
  m.pairHashCache.getD (pairHashOfEntries m.toList)

/-- Feed the map to a hasher that takes words: its hash is the one word. -/
def feed [HashEquiv K] [HashEquiv V] {H : Type} (word : H → UInt32 → H) (hasher : H)
    (m : Map K V) : H :=
  word hasher m.hash

/-- The map that remembers its hash. -/
def rememberHash [HashEquiv K] [HashEquiv V] (m : Map K V) : Map K V :=
  { m with hashCache := some m.hash }

/-- The map that remembers its pairwise hash. -/
def rememberPairHash [HashEquiv K] [HashEquiv V] (m : Map K V) : Map K V :=
  { m with pairHashCache := some m.pairHash }

instance [HashEquiv K] [HashEquiv V] : HashEquiv (Map K V) where
  hash := hash
  equiv := agrees equiv

end HashTrie.Map
