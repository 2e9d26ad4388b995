import GraphMapper.Proofs.Mutation.Linking

/-!
# Single-valued relationships

A store is `SingleValued` when no document has two neighbours along a declared relationship of
cardinality one. The edges of one association are seen from both of its ends, and from each end by at
most one declaration; `Hop.SourceOne` and `Hop.OneBack` say of a hop that the declaration at its
source, or at its target, holds one document.

A call keeps stores single-valued unless it `Overfills`: it goes through a related name, whose
cardinality is always many, while a partner declares the same edges as single-valued from the source,
and it may leave the source with two documents. `preserves_iff` says that this exception is exact.
-/

namespace GraphMapper

open Outcome

theorem Handle.eq_of_text_eq {x y : Handle} (hcollection : x.collection = y.collection)
    (h : x.text = y.text) : x = y := by
  obtain ⟨collection, key⟩ := x
  obtain ⟨collection', key'⟩ := y
  obtain rfl : collection = collection' := hcollection
  have hkey : key = key' := (String.append_right_inj _).mp h
  rw [hkey]

/-! ## Single-valued stores -/

/-- No document has two neighbours along a declared relationship of cardinality one. -/
def Mapper.SingleValued (m : Mapper) (store : EdgeStore) : Prop :=
  ∀ e ∈ m.schema.all, ∀ r ∈ e.relationships, r.cardinality = .one →
    ∀ h, m.topology.hop e.name r.name = .ok h →
      ∀ x : Handle, x.collection = e.collectionName →
        ∀ y z, h.Reads store x.text y → h.Reads store x.text z → y = z

/-- One record gives no document two neighbours. -/
theorem Mapper.singleValued_of_subsingleton {m : Mapper} {store : EdgeStore}
    (hstore : ∀ r ∈ store, ∀ r' ∈ store, r = r') : m.SingleValued store := by
  rintro e - r - - h - x - y z ⟨⟨d, c⟩, he, hy⟩ ⟨⟨d', c'⟩, he', hz⟩
  have heq := hstore _ hy _ hz
  obtain rfl : c = c' := by simpa using congrArg EdgeRecord.collection heq
  obtain rfl := Hop.direction_unique he he'
  exact (Direction.record_inj heq).2

/-- At most one neighbour of every document of a collection. -/
def Hop.Unique (h : Hop) (collection : String) (store : EdgeStore) : Prop :=
  ∀ x : Handle, x.collection = collection →
    ∀ y z, h.Reads store x.text y → h.Reads store x.text z → y = z

/-- The hop of a declaration. -/
def Place.hop (p : Place) : Hop := ⟨p, .outbound⟩

namespace Mapper.Resolved

variable {m : Mapper} (hm : m.Resolved)
include hm

/-- The declared relationships are the places of the topology. -/
theorem singleValued_iff {store : EdgeStore} :
    m.SingleValued store ↔ ∀ p ∈ m.topology.places, p.link.cardinality = .one →
      p.hop.Unique p.link.fromCollection store := by
  obtain ⟨ds, hds, ht⟩ := hm.topology
  constructor
  · intro hstore p hp hone
    obtain ⟨d, hd, hlink⟩ := ht.declaration_of_place hp
    obtain ⟨he, hr, -⟩ := (Schema.mem_declarations_iff hds).mp hd
    have hhop := ht.hop_declared hp
    rw [hlink] at hone hhop ⊢
    exact hstore d.source he d.relationship hr hone p.hop hhop
  · intro hplaces e he r hr hone h hh
    obtain ⟨d, hd, rfl, rfl⟩ := Schema.exists_declaration hds he hr
    obtain ⟨p, hp, hlink⟩ := ht.place_of_declaration hd
    have hhop := ht.hop_declared hp
    rw [hlink] at hhop
    obtain rfl : h = p.hop := Except.ok.inj (hh.symm.trans hhop)
    have hunique := hplaces p hp
    rw [hlink] at hunique
    exact hunique hone

end Mapper.Resolved

/-! ## Who sees the edges of a hop -/

namespace Hop

variable {h : Hop}

/-- The declaration that sees the hop from its source holds one document. -/
def SourceOne (h : Hop) : Prop :=
  match h.direction with
  | .outbound => h.link.cardinality = .one
  | .inbound => ∃ l ∈ h.partner, l.cardinality = .one

/-- The hop of the partner, which starts where a hop under a related name does. -/
def partnerHop (h : Hop) (l : Link) : Hop := Place.hop ⟨h.association, l⟩

section

variable {t : Topology} {s : Schema} {ds : List Declaration} (ht : t.Resolves s ds)
  (hp : h.place ∈ t.places)
include ht hp

theorem reads_partnerHop (hd : h.direction = .inbound) {l : Link} (hl : h.partner = some l)
    {store : EdgeStore} {x y : String} :
    (h.partnerHop l).Reads store x y ↔ h.Reads store x y := by
  have hpartner : (h.partnerHop l).partner = some h.link := ht.partner_partner hp hl .outbound
  have hsame : ∀ e, e ∈ (h.partnerHop l).edgeCollections ↔ e ∈ h.edgeCollections := by
    intro e
    rw [mem_edgeCollections, mem_edgeCollections, hpartner, hl, hd]
    simp only [Option.some.injEq, exists_eq_left', Direction.flip]
    exact or_comm
  simp only [Reads, hsame]

omit ht hp in
/-- The collections of a hop are those of the links of its association. -/
theorem place_of_mem_collections {g : Hop} (hg : g.place ∈ t.places) {collection : String}
    (hmem : collection ∈ g.collections) :
    ∃ q ∈ t.places, q.association = g.association ∧ q.link.collection = collection := by
  obtain ⟨d, he⟩ := mem_collections.mp hmem
  rcases mem_edgeCollections.mp he with heq | ⟨l, hl, heq⟩
  · exact ⟨g.place, hg, rfl, (Prod.mk.inj heq).2.symm⟩
  · exact ⟨⟨g.association, l⟩, Topology.Resolves.partner_place hg hl, rfl,
      (Prod.mk.inj heq).2.symm⟩

/-- A declaration of another association follows none of the collections of the hop. -/
theorem collections_disjoint {p : Place} (hplace : p ∈ t.places)
    (hother : p.association ≠ h.association) {collection : String}
    (hc : collection ∈ p.hop.collections) : collection ∉ h.collections := by
  intro hmem
  obtain ⟨q, hq, hqa, hqc⟩ := place_of_mem_collections (g := p.hop) hplace hc
  obtain ⟨q', hq', hqa', hqc'⟩ := place_of_mem_collections hp hmem
  obtain rfl := ht.eq_of_collection_eq hq hq' (hqc.trans hqc'.symm)
  exact hother (hqa.symm.trans hqa')

/-- How a declaration sees the edges of a hop: from its source, from its target, or not at all. -/
inductive View (h : Hop) (p : Place) : Prop
  | source (reads : ∀ store x y, p.hop.Reads store x y ↔ h.Reads store x y)
      (one : p.link.cardinality = .one → h.SourceOne)
  | target (reads : ∀ store x y, p.hop.Reads store y x ↔ h.Reads store x y)
      (one : p.link.cardinality = .one → h.OneBack)
  | apart (disjoint : ∀ collection ∈ p.hop.collections, collection ∉ h.collections)

theorem view {p : Place} (hplace : p ∈ t.places) : h.View p := by
  by_cases hassociation : p.association = h.association
  · have hlink : p.link ∈ h.association.links :=
      hassociation ▸ (Topology.mem_places.mp hplace).2
    obtain ⟨place, direction⟩ := h
    rcases ht.eq_link_or_partner hp hlink with hown | hpartner
    · obtain rfl : p = place := congrArg₂ Place.mk hassociation hown
      cases direction with
      | outbound => exact .source (fun _ _ _ => Iff.rfl) id
      | inbound =>
        exact .target (fun _ _ _ => reads_opposite ht hp rfl) fun hone => ⟨p.hop, rfl, hone⟩
    · have hp' : p = ⟨place.association, p.link⟩ := congrArg (Place.mk · p.link) hassociation
      cases direction with
      | outbound =>
        have hback : Hop.opposite ⟨place, .outbound⟩ = some p.hop := by
          rw [opposite, hpartner, hp']
          rfl
        exact .target (fun _ _ _ => reads_opposite ht hp hback) fun hone => ⟨p.hop, hback, hone⟩
      | inbound =>
        have hsame : Hop.partnerHop ⟨place, .inbound⟩ p.link = p.hop := congrArg Place.hop hp'.symm
        have hreads : ∀ store x y, p.hop.Reads store x y ↔
            Hop.Reads ⟨place, .inbound⟩ store x y := by
          intro store x y
          rw [← hsame]
          exact reads_partnerHop ht hp rfl hpartner
        exact .source hreads fun hone => ⟨p.link, hpartner, hone⟩
  · exact .apart fun _ => collections_disjoint ht hp hplace hassociation

end

end Hop

/-! ## What an update keeps -/

namespace EdgeCall

/-- The call may put two neighbours at its source, which holds one document if `own`. -/
def Crowds (own : Prop) : EdgeCall → Prop
  | link _ _ _ => ¬ own
  | assign _ _ targets => ∃ t ∈ targets, ∃ t' ∈ targets, t.text ≠ t'.text
  | unlink _ _ _ => False

variable {c : EdgeCall} {own other : Prop} {R : String → String → Prop}

theorem update_source_unique (hc : ¬ c.Crowds own) {x : String}
    (hR : ∀ y z, R x y → R x z → y = z) {y z : String}
    (hy : c.update own other R x y) (hz : c.update own other R x z) : y = z := by
  cases c with
  | link source relation target =>
    have hown : own := not_not.mp hc
    rcases hy with ⟨hy, hy', -⟩ | ⟨hx, rfl⟩ <;> rcases hz with ⟨hz, hz', -⟩ | ⟨hx', rfl⟩
    · exact hR y z hy hz
    · exact absurd ⟨hown, hx'⟩ hy'
    · exact absurd ⟨hown, hx⟩ hz'
    · rfl
  | assign source relation targets =>
    rcases hy with ⟨hy, hy', -⟩ | ⟨hx, t, ht, rfl⟩ <;>
      rcases hz with ⟨hz, hz', -⟩ | ⟨hx', t', ht', rfl⟩
    · exact hR y z hy hz
    · exact absurd hx' hy'
    · exact absurd hx hz'
    · exact not_not.mp fun hne => hc ⟨t, ht, t', ht', hne⟩
  | unlink source relation target => exact hR y z hy.1 hz.1

theorem update_target_unique (hother : other) {y : String}
    (hR : ∀ x z, R x y → R z y → x = z) {x z : String}
    (hx : c.update own other R x y) (hz : c.update own other R z y) : x = z := by
  cases c with
  | link source relation target =>
    rcases hx with ⟨hx, -, hx'⟩ | ⟨rfl, hy⟩ <;> rcases hz with ⟨hz, -, hz'⟩ | ⟨rfl, hy'⟩
    · exact hR x z hx hz
    · exact absurd ⟨hother, hy'⟩ hx'
    · exact absurd ⟨hother, hy⟩ hz'
    · rfl
  | assign source relation targets =>
    rcases hx with ⟨hx, -, hx'⟩ | ⟨rfl, hy⟩ <;> rcases hz with ⟨hz, -, hz'⟩ | ⟨rfl, hy'⟩
    · exact hR x z hx hz
    · exact absurd ⟨hother, hy'⟩ hx'
    · exact absurd ⟨hother, hy⟩ hz'
    · rfl
  | unlink source relation target => exact hR x z hx.1 hz.1

/-! ## The exception -/

/-- Whether the call alone may leave its source with two documents. -/
def LeavesTwo : EdgeCall → Prop
  | link _ _ _ => True
  | assign _ _ targets => ∃ t ∈ targets, ∃ t' ∈ targets, t ≠ t'
  | unlink _ _ _ => False

/-- The call goes through a related name although a partner declares the relation as single-valued
from the source. -/
def Overfills (m : Mapper) (c : EdgeCall) : Prop :=
  ∃ h, m.hopOf c.source c.relation = .ok h ∧ h.direction = .inbound ∧
    (∃ l ∈ h.partner, l.cardinality = .one) ∧ c.LeavesTwo

instance : (c : EdgeCall) → Decidable c.LeavesTwo
  | link _ _ _ => isTrue trivial
  | assign _ _ targets =>
    inferInstanceAs (Decidable (∃ t ∈ targets, ∃ t' ∈ targets, t ≠ t'))
  | unlink _ _ _ => isFalse id

instance (m : Mapper) (c : EdgeCall) : Decidable (c.Overfills m) :=
  match hh : m.hopOf c.source c.relation with
  | .ok h =>
    decidable_of_iff (h.direction = .inbound ∧ (∃ l ∈ h.partner, l.cardinality = .one) ∧
      c.LeavesTwo) (by simp [Overfills, hh])
  | .error _ => isFalse (by simp [Overfills, hh])

section

variable {m : Mapper} {c : EdgeCall} {statements : List Statement}

/-- A call that does not overfill puts one document at most where the source holds one. -/
theorem not_crowds (hrun : c.statements m = .ok statements) (hc : ¬ c.Overfills m) {h : Hop}
    (hh : m.hopOf c.source c.relation = .ok h) (hone : h.SourceOne) :
    ¬ c.Crowds (h.cardinality = .one) := by
  intro hcrowds
  -- from its own side a hop of cardinality one is swept first, and has one target at most
  have hdirection : h.direction = .inbound := by
    cases hd : h.direction with
    | inbound => rfl
    | outbound =>
      have hcardinality : h.cardinality = .one := by
        unfold Hop.SourceOne at hone
        unfold Hop.cardinality
        rwa [hd] at hone ⊢
      cases c with
      | link source relation target => exact absurd hcardinality hcrowds
      | assign source relation targets =>
        obtain ⟨h', _, hh', hfew, -, -⟩ := Mapper.assign_eq_ok hrun
        obtain rfl : h' = h := Except.ok.inj (hh'.symm.trans hh)
        obtain ⟨t, ht, t', ht', hne⟩ := hcrowds
        have hlength : targets.length ≤ 1 := not_lt.mp fun hlt => hfew ⟨hcardinality, hlt⟩
        have hsame : t = t' := by
          rcases targets with _ | ⟨only, _ | ⟨second, rest⟩⟩
          · cases ht
          · rw [List.mem_singleton.mp ht, List.mem_singleton.mp ht']
          · simp at hlength
        exact absurd (congrArg Handle.text hsame) hne
      | unlink source relation target => exact hcrowds.elim
  have hpartner : ∃ l ∈ h.partner, l.cardinality = .one := by
    unfold Hop.SourceOne at hone
    rwa [hdirection] at hone
  refine hc ⟨h, hh, hdirection, hpartner, ?_⟩
  cases c with
  | link source relation target => trivial
  | assign source relation targets =>
    obtain ⟨t, ht, t', ht', hne⟩ := hcrowds
    exact ⟨t, ht, t', ht', fun heq => hne (congrArg Handle.text heq)⟩
  | unlink source relation target => exact hcrowds

/-- A call that does not overfill keeps a store single-valued. -/
theorem preserves (hm : m.Resolved) (hrun : c.statements m = .ok statements)
    (hc : ¬ c.Overfills m) {store : EdgeStore} (hstore : m.SingleValued store) :
    m.SingleValued (runEdges statements store) := by
  obtain ⟨ds, -, ht⟩ := hm.topology
  obtain ⟨h, hh, hupdates⟩ := updates hm hrun
  have hp := hm.place_of_hopOf hh
  rw [hm.singleValued_iff] at hstore ⊢
  intro p hplace hone x hx y z hy hz
  have hunique := hstore p hplace hone x hx
  -- what a declaration sees of the edges that the call has changed
  cases Hop.view ht hp hplace with
  | source hreads hsource =>
    simp only [hreads, (hupdates store).reads_iff] at hy hz hunique
    exact update_source_unique (not_crowds hrun hc hh (hsource hone)) hunique hy hz
  | target hreads htarget =>
    simp only [hreads, (hupdates store).reads_iff] at hy hz hunique
    exact update_target_unique (htarget hone) hunique hy hz
  | apart hdisjoint =>
    have hsame : ∀ a b, p.hop.Reads (runEdges statements store) a b ↔ p.hop.Reads store a b := by
      intro a b
      refine exists_congr fun e => and_congr_right fun he => (hupdates store).frame _ ?_
      rw [Direction.record_collection]
      exact hdisjoint _ (Hop.mem_collections.mpr ⟨e.1, he⟩)
    exact hunique y z ((hsame _ _).mp hy) ((hsame _ _).mp hz)

/-- Calls that do not overfill, one after the other. -/
theorem preserves_all (hm : m.Resolved) {calls : List EdgeCall} {runs : List (List Statement)}
    (hruns : calls.mapM (fun c => c.statements m) = .ok runs)
    (hcalls : ∀ c ∈ calls, ¬ c.Overfills m) {store : EdgeStore} (hstore : m.SingleValued store) :
    m.SingleValued (runEdges runs.flatten store) := by
  induction mapM_eq_ok_iff.mp hruns generalizing store with
  | nil => exact hstore
  | @cons c statements calls runs hrun hrest ih =>
    rw [List.flatten_cons, runEdges_append]
    have hkept := preserves hm hrun (hcalls c List.mem_cons_self) hstore
    exact ih (mapM_eq_ok_iff.mpr hrest) (fun c hc => hcalls c (List.mem_cons_of_mem _ hc)) hkept

/-- A call that overfills breaks some single-valued store. -/
theorem breaks (hm : m.Resolved) (hrun : c.statements m = .ok statements) (hc : c.Overfills m) :
    ∃ store, m.SingleValued store ∧ ¬ m.SingleValued (runEdges statements store) := by
  obtain ⟨ds, hds, ht⟩ := hm.topology
  obtain ⟨h, hh, hdirection, ⟨l, hl, hone⟩, htwo⟩ := hc
  have hp := hm.place_of_hopOf hh
  obtain ⟨h', hh', hupdates⟩ := updates hm hrun
  obtain rfl : h' = h := Except.ok.inj (hh'.symm.trans hh)
  -- two neighbours of the source along the hop are two neighbours along the partner
  have htwice : ∀ store, (∃ y z, y ≠ z ∧ h'.Reads store c.source.text y ∧
      h'.Reads store c.source.text z) → ¬ m.SingleValued store := by
    rintro store ⟨y, z, hne, hy, hz⟩ hstore
    have hplace := Topology.Resolves.partner_place hp hl
    have hcollection : c.source.collection = l.fromCollection := by
      rw [ht.partner_fromCollection hm.wellFormed hds hp hl]
      exact hm.source_collection hh hdirection
    have hunique := hm.singleValued_iff.mp hstore _ hplace hone c.source hcollection
    rw [← Hop.reads_partnerHop ht hp hdirection hl] at hy hz
    exact hne (hunique y z hy hz)
  have hmany : ¬ h'.cardinality = .one := by simp [Hop.cardinality, hdirection]
  cases c with
  | link source relation target =>
    -- the source already has another document, which nothing sweeps
    let other := target.text ++ "0"
    have hne : other ≠ target.text := fun heq => by simpa [other] using congrArg String.length heq
    let store : EdgeStore := {h'.direction.flip.record l.collection source.text other}
    have hreads : h'.Reads store source.text other :=
      ⟨_, Hop.mem_edgeCollections.mpr (Or.inr ⟨l, hl, rfl⟩), Finset.mem_singleton_self _⟩
    refine ⟨store, ?_, htwice _ ⟨other, target.text, hne, ?_, ?_⟩⟩
    · apply Mapper.singleValued_of_subsingleton
      intro r hr r' hr'
      rw [Finset.mem_singleton.mp hr, Finset.mem_singleton.mp hr']
    · exact ((hupdates store).reads_iff _ _).mpr
        (Or.inl ⟨hreads, fun h => hmany h.1, fun h => hne h.2⟩)
    · exact ((hupdates store).reads_iff _ _).mpr (Or.inr ⟨rfl, rfl⟩)
  | assign source relation targets =>
    -- both targets are connected, and the second sweep takes nothing from the source
    obtain ⟨t, htarget, t', htarget', hne⟩ := htwo
    have htext : t.text ≠ t'.text := by
      obtain ⟨g, connected, hg, -, hconnect, -⟩ := Mapper.assign_eq_ok hrun
      have hcollections := Mapper.connectAll_targets hconnect
      exact fun heq => hne (Handle.eq_of_text_eq
        ((hcollections t htarget).trans (hcollections t' htarget').symm) heq)
    refine ⟨∅, ?_, htwice _ ⟨t.text, t'.text, htext, ?_, ?_⟩⟩
    · exact Mapper.singleValued_of_subsingleton fun r hr => absurd hr (Finset.notMem_empty r)
    · exact ((hupdates ∅).reads_iff _ _).mpr (Or.inr ⟨rfl, t, htarget, rfl⟩)
    · exact ((hupdates ∅).reads_iff _ _).mpr (Or.inr ⟨rfl, t', htarget', rfl⟩)
  | unlink source relation target => exact htwo.elim

end

/-- A call keeps every single-valued store single-valued exactly if it does not overfill, and calls
that do not overfill, one after the other, lead from the empty store to single-valued ones only. -/
theorem preserves_iff {m : Mapper} (hm : m.Resolved) :
    (∀ (c : EdgeCall) (statements : List Statement), c.statements m = .ok statements →
      ((∀ store, m.SingleValued store → m.SingleValued (runEdges statements store)) ↔
        ¬ c.Overfills m)) ∧
    ∀ (calls : List EdgeCall) (runs : List (List Statement)),
      calls.mapM (fun c => c.statements m) = .ok runs → (∀ c ∈ calls, ¬ c.Overfills m) →
        m.SingleValued (runEdges runs.flatten ∅) := by
  constructor
  · intro c statements hrun
    refine ⟨?_, fun hc store => preserves hm hrun hc⟩
    intro hkeeps hc
    obtain ⟨store, hstore, hbroken⟩ := breaks hm hrun hc
    exact hbroken (hkeeps store hstore)
  · intro calls runs hruns hcalls
    have hempty : m.SingleValued ∅ :=
      Mapper.singleValued_of_subsingleton fun r hr => absurd hr (Finset.notMem_empty r)
    exact preserves_all hm hruns hcalls hempty

/-- Two persons are given the same account, under the declared name: the second one keeps it. -/
theorem preserves_iff_accounts :
    ∃ runs, [link ⟨"people", "1"⟩ "accounts" ⟨"accounts", "1"⟩,
        link ⟨"people", "2"⟩ "accounts" ⟨"accounts", "1"⟩].mapM
          (fun c : EdgeCall => c.statements Bank.mapper) = .ok runs ∧
      Bank.mapper.SingleValued (runEdges runs.flatten ∅) := by
  have hok : ([link ⟨"people", "1"⟩ "accounts" ⟨"accounts", "1"⟩,
      link ⟨"people", "2"⟩ "accounts" ⟨"accounts", "1"⟩].mapM
        (fun c : EdgeCall => c.statements Bank.mapper)).isOk = true := by decide +kernel
  obtain ⟨runs, hruns⟩ := exists_of_isOk hok
  refine ⟨runs, hruns, (preserves_iff Bank.mapper_resolved).2 _ runs hruns ?_⟩
  decide +kernel

end EdgeCall

/-! ## Two owners -/

/-- Whether a relationship of cardinality one gives a document both neighbours. -/
def Mapper.hasBoth (m : Mapper) (store : EdgeStore) (x : Handle) (y z : String) : Bool :=
  m.schema.all.any fun e => x.collection == e.collectionName && e.relationships.any fun r =>
    r.cardinality == .one && match m.topology.hop e.name r.name with
      | .ok h => decide (h.Reads store x.text y ∧ h.Reads store x.text z)
      | .error _ => false

theorem Mapper.not_singleValued_of_hasBoth {m : Mapper} {store : EdgeStore} {x : Handle}
    {y z : String} (h : m.hasBoth store x y z = true) (hne : y ≠ z) :
    ¬ m.SingleValued store := by
  intro hstore
  obtain ⟨e, he, h⟩ := List.any_eq_true.mp h
  obtain ⟨hx, h⟩ := Bool.and_eq_true_iff.mp h
  obtain ⟨r, hr, h⟩ := List.any_eq_true.mp h
  obtain ⟨hone, h⟩ := Bool.and_eq_true_iff.mp h
  cases hh : m.topology.hop e.name r.name with
  | error _ => simp [hh] at h
  | ok hop =>
    simp only [hh, decide_eq_true_eq] at h
    exact hne (hstore e he r hr (beq_iff_eq.mp hone) hop hh x (beq_iff_eq.mp hx) y z h.1 h.2)

/-- Two persons are given the same account under its related name: the account has two owners. -/
theorem EdgeCall.holders_break :
    Bank.mapper.Resolved ∧
      ∃ runs, [link ⟨"accounts", "1"⟩ "holders" ⟨"people", "1"⟩,
          link ⟨"accounts", "1"⟩ "holders" ⟨"people", "2"⟩].mapM
            (fun c : EdgeCall => c.statements Bank.mapper) = .ok runs ∧
        ¬ Bank.mapper.SingleValued (runEdges runs.flatten ∅) := by
  let calls : List EdgeCall := [link ⟨"accounts", "1"⟩ "holders" ⟨"people", "1"⟩,
    link ⟨"accounts", "1"⟩ "holders" ⟨"people", "2"⟩]
  have hboth : (match calls.mapM (fun c : EdgeCall => c.statements Bank.mapper) with
      | .ok runs =>
        Bank.mapper.hasBoth (runEdges runs.flatten ∅) ⟨"accounts", "1"⟩ "people/1" "people/2"
      | .error _ => false) = true := by decide +kernel
  refine ⟨Bank.mapper_resolved, ?_⟩
  cases hruns : calls.mapM (fun c : EdgeCall => c.statements Bank.mapper) with
  | error _ => simp [hruns] at hboth
  | ok runs =>
    rw [hruns] at hboth
    exact ⟨runs, rfl, Mapper.not_singleValued_of_hasBoth hboth (by decide)⟩

end GraphMapper
