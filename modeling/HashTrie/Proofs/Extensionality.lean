import HashTrie.Proofs.Comparison
import HashTrie.Proofs.Runs

/-!
# Maps are compared by their lookups

Between maps that were made together, over keys that are equivalent to themselves and keep the
contract, equality and equivalence are extensional (`extensional_of_population`): two maps compare
equal exactly when every key leads to no value in both of them, or to values that compare equal. How
the maps were made, the shape of their tries and their metadata play no part. So the comparison is
an equivalence relation, though it searches in one direction only; and neither of its short cuts
decides otherwise than a search in both directions would.
-/

namespace HashTrie

variable {K V : Type} [HashEquiv K]

/-- Whether every key of a set leads to no value in both maps, or to values that a test accepts. -/
def Map.LookupsAgree (S : Set K) (same : V → V → Bool) (a b : Map K V) : Prop :=
  ∀ q ∈ S, Option.Rel (fun v w => same v w = true) (a.get? (Probe.ofKey q)) (b.get? (Probe.ofKey q))

/-- Whether a comparison of some maps is extensional, with the keys from a set and the values
compared by a test. -/
structure Extensional (S : Set K) (same : V → V → Bool) (compare : Map K V → Map K V → Bool)
    (ms : List (Map K V)) : Prop where
  /-- Maps compare equal exactly when their lookups agree. -/
  iff_lookupsAgree {a b : Map K V} : a ∈ ms → b ∈ ms →
    (compare a b = true ↔ a.LookupsAgree S same b)
  /-- The comparison is reflexive, symmetric and transitive. -/
  equivOn : EquivOn {m | m ∈ ms} compare
  /-- Where the counts differ, so do the lookups. -/
  count_eq {a b : Map K V} : a ∈ ms → b ∈ ms → a.LookupsAgree S same b → a.count = b.count
  /-- Where the root is shared, the lookups agree. -/
  of_sharesRoot {a b : Map K V} : a ∈ ms → b ∈ ms → a.sharesRoot b = true →
    a.LookupsAgree S same b
  /-- Without the short cut for a shared root the answer is the same. -/
  eq_count_and_foundIn {a b : Map K V} : a ∈ ms → b ∈ ms →
    compare a b = (a.count == b.count && a.foundIn same b)
  /-- Without both short cuts, and with a search in both directions, the answer is the same. -/
  eq_foundIn_and_foundIn {a b : Map K V} : a ∈ ms → b ∈ ms →
    compare a b = (a.foundIn same b && b.foundIn same a)

variable {S : Set K} {T : Set V} {same : V → V → Bool} {ms : List (Map K V)} {a b : Map K V}

theorem Extensional.congr {compare compare' : Map K V → Map K V → Bool}
    (h : Extensional S same compare ms)
    (heq : ∀ a ∈ ms, ∀ b ∈ ms, compare' a b = compare a b) : Extensional S same compare' ms where
  iff_lookupsAgree {a b} ha hb := by
    rw [heq a ha b hb]
    exact h.iff_lookupsAgree ha hb
  equivOn :=
    { refl := fun {a} ha => by
        rw [heq a ha a ha]
        exact h.equivOn.refl ha
      symm := fun {a b} ha hb => by
        rw [heq a ha b hb, heq b hb a ha]
        exact h.equivOn.symm ha hb
      trans := fun {a b c} ha hb hc => by
        rw [heq a ha b hb, heq b hb c hc, heq a ha c hc]
        exact h.equivOn.trans ha hb hc }
  count_eq := h.count_eq
  of_sharesRoot := h.of_sharesRoot
  eq_count_and_foundIn {a b} ha hb := by
    rw [heq a ha b hb]
    exact h.eq_count_and_foundIn ha hb
  eq_foundIn_and_foundIn {a b} ha hb := by
    rw [heq a ha b hb]
    exact h.eq_foundIn_and_foundIn ha hb

/-! ## Covering by lookups -/

omit [HashEquiv K] in
theorem option_rel_iff {r : V → V → Prop} {o o' : Option V} :
    Option.Rel r o o' ↔ (∀ v ∈ o, ∃ w ∈ o', r v w) ∧ ∀ w ∈ o', ∃ v ∈ o, r v w := by
  cases o <;> cases o' <;> simp

/-- A list of entries covers another one exactly when its lookups are answered there. -/
theorem Map.Keyed.covers_iff (ha : a.Keyed S T) (hb : b.Keyed S T) (hS : Contract S)
    (hrefl : ∀ k ∈ S, equiv k k = true) :
    Covers same a.toList b.toList ↔ ∀ q ∈ S, ∀ v ∈ a.get? (Probe.ofKey q),
      ∃ w ∈ b.get? (Probe.ofKey q), same v w = true := by
  constructor
  · intro hcov q hq v hv
    obtain ⟨x, hx, rfl⟩ := Option.map_eq_some_iff.mp hv
    obtain ⟨hxa, hqx⟩ := (ha.find?_eq_some_iff hS hq).mp hx
    obtain ⟨y, hyb, hxy, hsame⟩ := hcov x hxa
    have hqy := hS.trans hq (ha.drawn x hxa).1 (hb.drawn y hyb).1 hqx hxy
    have hfind := (hb.find?_eq_some_iff hS hq).mpr ⟨hyb, hqy⟩
    exact ⟨y.value, Option.map_eq_some_iff.mpr ⟨y, hfind, rfl⟩, hsame⟩
  · intro hget x hx
    have hxS := (ha.drawn x hx).1
    have hfind := (ha.find?_eq_some_iff hS hxS).mpr ⟨hx, hrefl x.key hxS⟩
    obtain ⟨w, hw, hsame⟩ := hget x.key hxS x.value (Option.map_eq_some_iff.mpr ⟨x, hfind, rfl⟩)
    obtain ⟨y, hy, rfl⟩ := Option.map_eq_some_iff.mp hw
    obtain ⟨hyb, hxy⟩ := (hb.find?_eq_some_iff hS hxS).mp hy
    exact ⟨y, hyb, hxy, hsame⟩

/-! ## Comparisons of reflexive keys and values -/

namespace Coherent

variable (h : Coherent S T ms) (hS : Contract S) (hrefl : ∀ k ∈ S, equiv k k = true)
  (hT : EquivOn T same)

include h hS hrefl hT

/-- The shared root is a short cut only. -/
theorem agrees_iff_covers_of_length_eq (ha : a ∈ ms) (hb : b ∈ ms) : a.agrees same b = true ↔
    a.toList.length = b.toList.length ∧ Covers same a.toList b.toList := by
  rw [h.agrees_iff hS ha hb, or_iff_right_of_imp]
  intro hs
  rw [h.toList_eq a ha b hb hs]
  exact ⟨rfl, covers_self hrefl (fun _ => hT.refl) (h.keyed b hb).drawn⟩

/-- **Maps compare equal exactly when they cover each other.** -/
theorem agrees_iff_covers (ha : a ∈ ms) (hb : b ∈ ms) : a.agrees same b = true ↔
    Covers same a.toList b.toList ∧ Covers same b.toList a.toList := by
  have hka := h.keyed a ha
  have hkb := h.keyed b hb
  rw [h.agrees_iff_covers_of_length_eq hS hrefl hT ha hb]
  constructor
  · rintro ⟨hlen, hcov⟩
    exact ⟨hcov, hcov.symm hS.toPartialEquivOn hT.toPartialEquivOn hka.distinct hka.drawn
      hkb.drawn hlen⟩
  · rintro ⟨hcov, hcov'⟩
    have hle := hcov.length_le hS.toPartialEquivOn hka.distinct hka.drawn hkb.drawn
    have hle' := hcov'.length_le hS.toPartialEquivOn hkb.distinct hkb.drawn hka.drawn
    exact ⟨le_antisymm hle hle', hcov⟩

/-- **Maps compare equal exactly when their lookups agree.** -/
theorem agrees_iff_lookupsAgree (ha : a ∈ ms) (hb : b ∈ ms) :
    a.agrees same b = true ↔ a.LookupsAgree S same b := by
  have hka := h.keyed a ha
  have hkb := h.keyed b hb
  have hflip : Covers same b.toList a.toList ↔ Covers (fun v w => same w v) b.toList a.toList := by
    refine covers_congr (fun v hv w hw => ?_) hkb.drawn hka.drawn
    exact Bool.eq_iff_iff.mpr ⟨hT.symm hv hw, hT.symm hw hv⟩
  rw [h.agrees_iff_covers hS hrefl hT ha hb, hflip, hka.covers_iff hkb hS hrefl,
    hkb.covers_iff hka hS hrefl]
  simp only [Map.LookupsAgree, option_rel_iff]
  exact forall₂_and.symm

/-- **A comparison of coherent maps is extensional.** -/
theorem extensional : Extensional S same (Map.agrees same) ms where
  iff_lookupsAgree ha hb := h.agrees_iff_lookupsAgree hS hrefl hT ha hb
  equivOn :=
    { toPartialEquivOn := h.partialEquivOn_agrees hS hT.toPartialEquivOn
      refl := fun {a} ha => (h.agrees_iff hS ha ha).mpr (.inl (beq_self_eq_true _)) }
  count_eq {a b} ha hb hab := by
    rw [← h.agrees_iff_lookupsAgree hS hrefl hT ha hb,
      h.agrees_iff_covers_of_length_eq hS hrefl hT ha hb] at hab
    exact (h.count_eq_iff ha hb).mpr hab.1
  of_sharesRoot {a b} ha hb hs :=
    (h.agrees_iff_lookupsAgree hS hrefl hT ha hb).mp ((h.agrees_iff hS ha hb).mpr (.inl hs))
  eq_count_and_foundIn {a b} ha hb := by
    rw [Bool.eq_iff_iff, Bool.and_eq_true, beq_iff_eq, h.count_eq_iff ha hb,
      (h.keyed a ha).foundIn_iff (h.keyed b hb) hS]
    exact h.agrees_iff_covers_of_length_eq hS hrefl hT ha hb
  eq_foundIn_and_foundIn {a b} ha hb := by
    rw [Bool.eq_iff_iff, Bool.and_eq_true, (h.keyed a ha).foundIn_iff (h.keyed b hb) hS,
      (h.keyed b hb).foundIn_iff (h.keyed a ha) hS]
    exact h.agrees_iff_covers hS hrefl hT ha hb

end Coherent

/-- **Equality and equivalence of maps are extensional**, in any population over reflexive keys that
keep the contract: equality where equality of the values is an equivalence relation, and equivalence
where theirs is. -/
theorem extensional_of_population [BEq V] [HashEquiv V] {l : Ledger} (hp : Population l ms)
    (hS : Contract S) (hrefl : ∀ k ∈ S, equiv k k = true) (hms : StoredIn S T ms) :
    (EquivOn T (fun v w : V => v == w) →
        Extensional S (fun v w => v == w) (fun a b => a == b) ms) ∧
      (EquivOn T equiv → Extensional S equiv equiv ms) := by
  have h := coherent_of_population hp hS hms
  refine ⟨fun hT => (h.extensional hS hrefl hT).congr fun a ha b hb => ?_,
    fun hT => h.extensional hS hrefl hT⟩
  -- equality of maps has the other map's value on the left
  refine h.agrees_congr hS (fun v hv w hw => ?_) ha hb
  exact Bool.eq_iff_iff.mpr ⟨hT.symm hw hv, hT.symm hv hw⟩

/-- A map, and the ledger of its run. -/
def filledForwards : Map Bool Bool × Ledger :=
  Map.empty.edits [.insert ⟨true, false⟩, .insert ⟨false, true⟩] Ledger.empty

/-- A map that is filled in the opposite order, later in the same run. -/
def filledBackwards : Map Bool Bool × Ledger :=
  Map.empty.edits [.insert ⟨false, true⟩, .insert ⟨true, false⟩] filledForwards.2

theorem exists_population_filled :
    ∃ l ms, Population l ms ∧ filledForwards.1 ∈ ms ∧ filledBackwards.1 ∈ ms := by
  obtain ⟨ms, hp, ha, -⟩ := Population.start.empty.edits (K := Bool) (V := Bool) List.mem_cons_self
    [.insert ⟨true, false⟩, .insert ⟨false, true⟩]
  obtain ⟨ms', hp', hb, hsub⟩ := hp.empty.edits List.mem_cons_self
    [.insert ⟨false, true⟩, .insert ⟨true, false⟩]
  exact ⟨_, ms', hp', hsub (List.mem_cons_of_mem _ ha), hb⟩

theorem equiv_filled : equiv filledForwards.1 filledBackwards.1 = true := by
  show Map.agrees equiv filledForwards.1 filledBackwards.1 = true
  rw [Map.agrees_eq, Map.foundIn, Map.toList_eq]
  rfl

theorem contract_bool : Contract (Set.univ : Set Bool) :=
  contract_of_eq fun _ _ _ _ h => eq_of_beq h

theorem storedIn_univ (ms : List (Map Bool Bool)) :
    StoredIn (Set.univ : Set Bool) (Set.univ : Set Bool) ms :=
  fun _ _ _ _ => ⟨Set.mem_univ _, Set.mem_univ _⟩

/-- Maps that were filled in opposite orders are equal. -/
theorem extensional_filled :
    Contract (Set.univ : Set Bool) ∧ (∀ k ∈ (Set.univ : Set Bool), equiv k k = true) ∧
      EquivOn (Set.univ : Set Bool) (fun v w => v == w) ∧
      ∃ l ms, Population (K := Bool) (V := Bool) l ms ∧ StoredIn Set.univ Set.univ ms ∧
        filledForwards.1 ∈ ms ∧ filledBackwards.1 ∈ ms ∧
        filledForwards.1.sharesRoot filledBackwards.1 = false ∧
        (filledForwards.1 == filledBackwards.1) = true := by
  have hrefl : ∀ k ∈ (Set.univ : Set Bool), equiv k k = true := fun k _ => beq_self_eq_true k
  have hT : EquivOn (Set.univ : Set Bool) (fun v w => v == w) := equivOn_beq _
  obtain ⟨l, ms, hp, ha, hb⟩ := exists_population_filled
  have hms := storedIn_univ ms
  refine ⟨contract_bool, hrefl, hT, l, ms, hp, hms, ha, hb, by decide, ?_⟩
  have h := (extensional_of_population hp contract_bool hrefl hms).1 hT
  refine (h.iff_lookupsAgree ha hb).mpr fun q _ => ?_
  cases q with
  | true => exact .some rfl
  | false => exact .some rfl

end HashTrie
