import TorrentApp.Detail.Cache

set_option autoImplicit false

/-!
# When the cache loses no store

Two laws of a store: what a lookup returns changes only to a value that is being
stored in the slot looked up, and a finished store is seen, or a later one of the
same slot, by its own instance and by all obtained afterwards.  Both rest on what
`synchronize` writes back: nothing that is older than what is persisted.
-/

namespace TorrentApp.Detail.Cache

open TorrentApp.Foundation

/-! ## The laws -/

/-- A store through instance `x` has set `slot` to `value` and has not finished. -/
def State.WritingThrough (s : State) (x : Nat) (slot : Slot) (value : String) : Prop :=
  ∃ c store, s.stores c = some store ∧ store.cache = x ∧ store.slot = slot ∧
    store.value = value ∧ store.finished = false

/-- Such a store through a live instance of `url`. -/
def State.Writing (s : State) (url : String) (slot : Slot) (value : String) : Prop :=
  ∃ x cache, s.instances x = some cache ∧ cache.url = url ∧ s.WritingThrough x slot value

/-- What lookups of proper slots see changes from `s` to `s'` only to values being
stored in the slot looked up: in the persisted dictionaries, and in every
instance, a new one starting from the persisted dictionary of its url. -/
structure FrameStep (s s' : State) : Prop where
  persisted : ∀ url slot, slot.Proper → s'.persisted url slot = s.persisted url slot ∨
    ∃ value, s'.persisted url slot = some value ∧ s.Writing url slot value
  instances : ∀ y cache', s'.instances y = some cache' → ∀ slot, slot.Proper →
    (∃ cache, s.instances y = some cache ∧ cache.url = cache'.url ∧
      cache'.caches slot.key = cache.caches slot.key) ∨
    (∃ value, cache'.caches slot.key = some value ∧ s'.Writing cache'.url slot value ∧
      ∃ cache, s.instances y = some cache ∧ cache.url = cache'.url) ∨
    (y = s.nextInstance ∧ cache'.caches slot.key = s.persisted cache'.url slot)

/-- Some store of `slot` at `url` put `value`, and it had not finished in `m`. -/
def State.Admits (s m : State) (url : String) (slot : Slot) (value : String) : Prop :=
  ∃ c store, s.stores c = some store ∧ store.url = url ∧ store.slot = slot ∧
    store.value = value ∧ ∀ before, m.stores c = some before → before.finished = false

section

variable (tmp : String) (fileExists : String → Bool)

/-- The frame law of a step. -/
def Frame (s : State) (l : Label) : Prop :=
  ∀ s', step tmp fileExists s l = some s' → FrameStep s s'

/-- Every lookup of a slot after a finished store of it, through the same instance
or through one of the same url obtained after the store finished, returns the
value of a store of that slot which had not finished when this one started. -/
def NoLostUpdate (tr : List Label) : Prop :=
  ∀ a b d e c x slot path y result m m₁ m₂ cache,
    tr = a ++ .setObject c x slot path ::
      (b ++ .synchronize c :: (d ++ .lookup y slot result :: e)) →
    run (step tmp fileExists) State.init a = some m → m.instances x = some cache →
    run (step tmp fileExists) m (.setObject c x slot path :: (b ++ [.synchronize c])) = some m₁ →
    run (step tmp fileExists) m₁ d = some m₂ →
    (y = x ∨ (m₁.nextInstance ≤ y ∧
      ∀ cache', m₂.instances y = some cache' → cache'.url = cache.url)) →
    ∃ value, result = lookedUp tmp fileExists slot (some value) ∧
      m₂.Admits m cache.url slot value

end

/-- The steps that keep the laws: no image goes by the torrent's key, and a
`synchronize` writes back a dictionary in which every slot is as it is persisted
or as an unfinished store through the same instance has just set it. -/
def Coherent (s : State) : Label → Prop
  | .setObject _ _ slot _ => slot.Proper
  | .lookup _ slot _ => slot.Proper
  | .synchronize c =>
      ∀ store cache, s.stores c = some store → s.instances store.cache = some cache →
        ∀ slot, slot.Proper → cache.caches slot.key = s.persisted cache.url slot ∨
          ∃ value, cache.caches slot.key = some value ∧ s.WritingThrough store.cache slot value
  | _ => True

variable {tmp : String} {fileExists : String → Bool}

/-! ## The frame law -/

theorem FrameStep.refl (s : State) : FrameStep s s where
  persisted := fun _ _ _ => Or.inl rfl
  instances := fun _ cache' h _ _ => Or.inl ⟨cache', h, rfl, rfl⟩

theorem frameStep_newInstance (s : State) (url : String) : FrameStep s (s.newInstance url) where
  persisted := fun _ _ _ => Or.inl rfl
  instances := by
    intro y cache' hy slot _
    by_cases hnew : y = s.nextInstance
    · subst hnew
      have heq : s.initWithUrl url = cache' := by simpa [State.newInstance] using hy
      subst heq
      refine Or.inr (Or.inr ⟨rfl, ?_⟩)
      cases hd : s.defaults url <;> simp [State.initWithUrl, State.persisted, hd]
    · exact Or.inl ⟨cache', by simpa [State.newInstance, hnew] using hy, rfl, rfl⟩

theorem frameStep_setObject {s : State} {x : Nat} {cache : DetailListCache}
    (hx : s.instances x = some cache) {slot : Slot} (hslot : slot.Proper) (path : String) :
    FrameStep s (s.setObject x cache slot path) where
  persisted := fun _ _ _ => Or.inl rfl
  instances := by
    intro y cache' hy slot' hslot'
    by_cases hyx : y = x
    · subst hyx
      have heq : cache.setObject slot (slot.stored path) = cache' := by
        simpa [State.setObject] using hy
      subst heq
      by_cases hkey : slot' = slot
      · subst hkey
        refine Or.inr (Or.inl ⟨slot'.stored path, by simp [DetailListCache.setObject],
          ⟨y, _, hy, rfl, s.nextStore, ⟨y, cache.url, slot', slot'.stored path, false⟩, ?_, rfl,
            rfl, rfl, rfl⟩, cache, hx, rfl⟩)
        simp [State.setObject]
      · have hne : slot'.key ≠ slot.key := fun h => hkey (Slot.key_injective hslot' hslot h)
        exact Or.inl ⟨cache, hx, rfl, by simp [DetailListCache.setObject, hne]⟩
    · exact Or.inl ⟨cache', by simpa [State.setObject, hyx] using hy, rfl, rfl⟩

theorem frameStep_synchronize {s : State} {c : Nat} {store : Store} {cache : DetailListCache}
    (hc : s.stores c = some store) (hx : s.instances store.cache = some cache)
    (hcoherent : Coherent s (.synchronize c)) : FrameStep s (s.synchronize c store cache) where
  persisted := by
    intro url slot hslot
    by_cases hurl : url = cache.url
    · subst hurl
      have hnew : (s.synchronize c store cache).persisted cache.url slot =
          cache.caches slot.key := by
        simp [State.synchronize, State.persisted]
      rw [hnew]
      refine (hcoherent store cache hc hx slot hslot).imp id ?_
      rintro ⟨value, hvalue, hwriting⟩
      exact ⟨value, hvalue, store.cache, cache, hx, rfl, hwriting⟩
    · exact Or.inl (by simp [State.synchronize, State.persisted, hurl])
  instances := fun y cache' hy _ _ => Or.inl ⟨cache', hy, rfl, rfl⟩

/-- A coherent step keeps the frame law. -/
theorem frame_of_coherent {s : State} {l : Label} (hwf : s.WellFormed) (h : Coherent s l) :
    Frame tmp fileExists s l := by
  intro s' hstep
  cases l with
  | cache url x =>
      obtain ⟨-, rfl⟩ := cache_cases hwf.singletons hstep
      exact frameStep_newInstance s url
  | setObject c x slot path =>
      obtain ⟨cache, hx, -, rfl⟩ := setObject_cases hstep
      exact frameStep_setObject hx h path
  | synchronize c =>
      obtain ⟨store, cache, hc, hx, -, rfl⟩ := synchronize_cases hstep
      exact frameStep_synchronize hc hx h
  | lookup x slot result =>
      obtain ⟨-, -, -, rfl⟩ := lookup_cases hstep
      exact FrameStep.refl s'
  | relaunch =>
      cases hstep
      exact ⟨fun _ _ _ => Or.inl rfl, fun _ _ hy => by cases hy⟩

/-! ## The store log only grows -/

/-- From `s` to `s'` no store is forgotten or changed, except that it may finish,
and numbers given out stay given out. -/
structure Extends (s s' : State) : Prop where
  nextInstance : s.nextInstance ≤ s'.nextInstance
  stores : ∀ c store, s.stores c = some store → ∃ store', s'.stores c = some store' ∧
    store'.cache = store.cache ∧ store'.url = store.url ∧ store'.slot = store.slot ∧
    store'.value = store.value ∧ (store.finished = true → store'.finished = true)

theorem Extends.refl (s : State) : Extends s s :=
  ⟨le_rfl, fun _ store h => ⟨store, h, rfl, rfl, rfl, rfl, id⟩⟩

theorem Extends.trans {s s' s'' : State} (h : Extends s s') (h' : Extends s' s'') :
    Extends s s'' where
  nextInstance := h.nextInstance.trans h'.nextInstance
  stores := by
    intro c store hc
    obtain ⟨store', hc', hcache, hurl, hslot, hvalue, hfin⟩ := h.stores c store hc
    obtain ⟨store'', hc'', hcache', hurl', hslot', hvalue', hfin'⟩ := h'.stores c store' hc'
    exact ⟨store'', hc'', hcache'.trans hcache, hurl'.trans hurl, hslot'.trans hslot,
      hvalue'.trans hvalue, fun h => hfin' (hfin h)⟩

theorem extends_step {s s' : State} {l : Label} (hwf : s.WellFormed)
    (hstep : step tmp fileExists s l = some s') : Extends s s' := by
  cases l with
  | cache url x =>
      obtain ⟨-, rfl⟩ := cache_cases hwf.singletons hstep
      exact ⟨Nat.le_succ _, (Extends.refl s).stores⟩
  | setObject c x slot path =>
      obtain ⟨cache, hx, -, rfl⟩ := setObject_cases hstep
      refine ⟨le_rfl, fun c' store hc' => ⟨store, ?_, rfl, rfl, rfl, rfl, id⟩⟩
      have hne : c' ≠ s.nextStore := by
        rintro rfl
        rw [hwf.stores _ le_rfl] at hc'
        cases hc'
      simpa [State.setObject, hne] using hc'
  | synchronize c =>
      obtain ⟨store, cache, hc, -, -, rfl⟩ := synchronize_cases hstep
      refine ⟨le_rfl, fun c' store' hc' => ?_⟩
      by_cases hcc : c' = c
      · subst hcc
        rw [hc, Option.some.injEq] at hc'
        subst hc'
        exact ⟨{ store with finished := true }, by simp [State.synchronize], rfl, rfl, rfl, rfl,
          fun _ => rfl⟩
      · exact ⟨store', by simpa [State.synchronize, hcc] using hc', rfl, rfl, rfl, rfl, id⟩
  | lookup x slot result =>
      obtain ⟨-, -, -, rfl⟩ := lookup_cases hstep
      exact Extends.refl s'
  | relaunch =>
      cases hstep
      exact ⟨le_rfl, (Extends.refl s).stores⟩

theorem extends_run {s s' : State} {tr : List Label}
    (hrun : run (step tmp fileExists) s tr = some s') (hwf : s.WellFormed) :
    s'.WellFormed ∧ Extends s s' := by
  refine run_induction (motive := fun _ s' => s'.WellFormed ∧ Extends s s')
    ⟨hwf, Extends.refl s⟩ ?_ hrun
  rintro tr s₁ l s₂ - ⟨hwf, hext⟩ hstep
  exact ⟨hwf.step hstep, hext.trans (extends_step hwf hstep)⟩

theorem State.Admits.mono {s s' m : State} {url : String} {slot : Slot} {value : String}
    (h : s.Admits m url slot value) (hext : Extends s s') : s'.Admits m url slot value := by
  obtain ⟨c, store, hc, hurl, hslot, hvalue, hbefore⟩ := h
  obtain ⟨store', hc', -, hurl', hslot', hvalue', -⟩ := hext.stores c store hc
  exact ⟨c, store', hc', hurl'.trans hurl, hslot'.trans hslot, hvalue'.trans hvalue, hbefore⟩

/-- A store that is still writing had not finished at any earlier time. -/
theorem admits_of_writing {s m : State} {url : String} {slot : Slot} {value : String}
    (hwf : s.WellFormed) (hext : Extends m s) (h : s.Writing url slot value) :
    s.Admits m url slot value := by
  obtain ⟨x, cache, hx, rfl, c, store, hc, rfl, hslot, hvalue, hfin⟩ := h
  refine ⟨c, store, hc, (hwf.url c store cache hc hx).symm, hslot, hvalue, fun before hbefore => ?_⟩
  obtain ⟨store', hc', -, -, -, -, hmono⟩ := hext.stores c before hbefore
  obtain rfl : store = store' := Option.some.inj (hc.symm.trans hc')
  by_contra hdone
  rw [hmono (by simpa using hdone)] at hfin
  cases hfin

/-! ## A finished store stays seen -/

/-- Seen from `m`, the instances of `url` among `Y` hold an admitted value in
`slot`, and so will those of `Y` still to come, which copy what is persisted. -/
structure Covered (m s : State) (url : String) (slot : Slot) (Y : Nat → Prop) : Prop where
  instances : ∀ y cache, Y y → s.instances y = some cache → cache.url = url →
    ∃ value, cache.caches slot.key = some value ∧ s.Admits m url slot value
  fresh : (∃ value, s.persisted url slot = some value ∧ s.Admits m url slot value) ∨
    ∀ y, Y y → y < s.nextInstance

theorem covered_step {m s s' : State} {url : String} {slot : Slot} {Y : Nat → Prop}
    (h : Covered m s url slot Y) (hslot : slot.Proper) (hwf : s.WellFormed)
    (hwf' : s'.WellFormed) (hm : Extends m s) (hext : Extends s s') (hframe : FrameStep s s') :
    Covered m s' url slot Y where
  instances := by
    intro y cache' hY hy hurl
    rcases hframe.instances y cache' hy slot hslot with ⟨cache, hold, holdurl, hsame⟩ |
      ⟨value, hvalue, hwriting, -⟩ | ⟨hnew, hcopy⟩
    · obtain ⟨value, hvalue, hadmits⟩ := h.instances y cache hY hold (holdurl.trans hurl)
      exact ⟨value, hsame.trans hvalue, hadmits.mono hext⟩
    · exact ⟨value, hvalue, admits_of_writing hwf' (hm.trans hext) (hurl ▸ hwriting)⟩
    · rcases h.fresh with ⟨value, hvalue, hadmits⟩ | hbelow
      · exact ⟨value, by rw [hcopy, hurl]; exact hvalue, hadmits.mono hext⟩
      · exact absurd (hbelow y hY) (by rw [hnew]; exact lt_irrefl _)
  fresh := by
    rcases h.fresh with ⟨value, hvalue, hadmits⟩ | hbelow
    · refine Or.inl ?_
      rcases hframe.persisted url slot hslot with hsame | ⟨value', hvalue', hwriting⟩
      · exact ⟨value, hsame.trans hvalue, hadmits.mono hext⟩
      · exact ⟨value', hvalue', (admits_of_writing hwf hm hwriting).mono hext⟩
    · exact Or.inr fun y hY => (hbelow y hY).trans_le hext.nextInstance

theorem covered_run {m s s' : State} {url : String} {slot : Slot} {Y : Nat → Prop}
    {tr : List Label} (hrun : run (step tmp fileExists) s tr = some s')
    (hall : AllSteps (step tmp fileExists) Coherent s tr) (h : Covered m s url slot Y)
    (hslot : slot.Proper) (hwf : s.WellFormed) (hm : Extends m s) : Covered m s' url slot Y := by
  refine run_induction_of_allSteps (motive := fun _ s' => Covered m s' url slot Y) h ?_ hrun hall
  intro tr s₁ l s₂ hprefix ih hgood hstep
  obtain ⟨hwf₁, hext⟩ := extends_run hprefix hwf
  exact covered_step ih hslot hwf₁ (hwf₁.step hstep) (hm.trans hext) (extends_step hwf₁ hstep)
    (frame_of_coherent hwf₁ hgood s₂ hstep)

/-- Setting a key covers the slot in the instance that set it. -/
theorem covered_setObject {m : State} {x : Nat} {cache : DetailListCache} {slot : Slot}
    {path : String} (hwf : m.WellFormed) (hx : m.instances x = some cache)
    (hext : Extends m (m.setObject x cache slot path)) :
    Covered m (m.setObject x cache slot path) cache.url slot (· = x) where
  instances := by
    rintro y cache' rfl hy -
    have heq : cache.setObject slot (slot.stored path) = cache' := by
      simpa [State.setObject] using hy
    subst heq
    refine ⟨slot.stored path, by simp [DetailListCache.setObject],
      admits_of_writing (hwf.setObject hx slot path) hext ⟨y, _, hy, rfl, m.nextStore,
        ⟨y, cache.url, slot, slot.stored path, false⟩, ?_, rfl, rfl, rfl, rfl⟩⟩
    simp [State.setObject]
  fresh := by
    refine Or.inr ?_
    rintro y rfl
    by_contra hge
    rw [hwf.instances y (Nat.le_of_not_lt hge)] at hx
    cases hx

/-- Writing a covered dictionary back covers all instances still to come. -/
theorem covered_synchronize {m s : State} {c : Nat} {store : Store} {cache : DetailListCache}
    {slot : Slot} (h : Covered m s store.url slot (· = store.cache)) (hwf : s.WellFormed)
    (hc : s.stores c = some store) (hx : s.instances store.cache = some cache)
    (hext : Extends s (s.synchronize c store cache)) :
    Covered m (s.synchronize c store cache) store.url slot
      fun y => y = store.cache ∨ s.nextInstance ≤ y := by
  have hurl := hwf.url c store cache hc hx
  refine ⟨?_, Or.inl ?_⟩
  · rintro y cache' (rfl | hge) hy hyurl
    · obtain ⟨value, hvalue, hadmits⟩ := h.instances _ cache' rfl hy hyurl
      exact ⟨value, hvalue, hadmits.mono hext⟩
    · have hnone : s.instances y = none := hwf.instances y hge
      have hsome : s.instances y = some cache' := hy
      rw [hnone] at hsome
      cases hsome
  · obtain ⟨value, hvalue, hadmits⟩ := h.instances _ cache rfl hx hurl
    refine ⟨value, ?_, hadmits.mono hext⟩
    simpa [State.synchronize, State.persisted, ← hurl] using hvalue

theorem noLostUpdate_of_coherent {tr : List Label} {s : State}
    (hrun : run (step tmp fileExists) State.init tr = some s)
    (hall : AllSteps (step tmp fileExists) Coherent State.init tr) :
    NoLostUpdate tmp fileExists tr := by
  intro a b d e c x slot path y result m m₁ m₂ cache htr hm hx hm₁ hm₂ hy
  subst htr
  -- the run in its five pieces, each with the condition on its steps
  obtain ⟨m₀, hset, hrest⟩ := run_cons.mp hm₁
  obtain ⟨k, hb, hsync⟩ := run_concat.mp hrest
  rw [run_append_of_run hm, run_cons_of_step hset, run_append_of_run hb, run_cons_of_step hsync,
    run_append_of_run hm₂] at hrun
  obtain ⟨_, hlookup, _⟩ := run_cons.mp hrun
  obtain ⟨-, hall⟩ := (allSteps_append hm).mp hall
  obtain ⟨hslot, hall⟩ := (allSteps_cons hset).mp hall
  obtain ⟨hallb, hall⟩ := (allSteps_append hb).mp hall
  obtain ⟨-, hall⟩ := (allSteps_cons hsync).mp hall
  obtain ⟨halld, -⟩ := (allSteps_append hm₂).mp hall
  -- from the first critical section of the store to the second
  have hwf := wellFormed_of_run hm
  have hext := extends_step hwf hset
  obtain ⟨cache₀, hx₀, rfl, rfl⟩ := setObject_cases hset
  obtain rfl : cache = cache₀ := Option.some.inj (hx.symm.trans hx₀)
  have hwf₀ := hwf.setObject hx slot path
  obtain ⟨hwfk, hextk⟩ := extends_run hb hwf₀
  have hcovered := covered_run hb hallb (covered_setObject hwf hx hext) hslot hwf₀ hext
  -- the second critical section finds the instance and the url of the first
  obtain ⟨store, cachek, hc, hxk, -, rfl⟩ := synchronize_cases hsync
  have hlogged : (m.setObject x cache slot path).stores m.nextStore =
      some ⟨x, cache.url, slot, slot.stored path, false⟩ := by
    simp [State.setObject]
  obtain ⟨store', hc', (hcache : store'.cache = x), (hurl : store'.url = cache.url), -⟩ :=
    hextk.stores _ _ hlogged
  obtain rfl : store = store' := Option.some.inj (hc.symm.trans hc')
  subst hcache
  have hext₁ := extends_step hwfk hsync
  have hm₁ext := (hext.trans hextk).trans hext₁
  rw [← hurl] at hcovered
  have hcovered₁ := covered_synchronize hcovered hwfk hc hxk hext₁
  -- from there to the lookup
  have hwf₁ := hwfk.synchronize hc cachek
  have hcovered₂ := covered_run hm₂ halld hcovered₁ hslot hwf₁ hm₁ext
  obtain ⟨hwf₂, hext₂⟩ := extends_run hm₂ hwf₁
  obtain ⟨cachey, hyget, hresult, -⟩ := lookup_cases hlookup
  have hyurl : cachey.url = store.url := by
    rcases hy with rfl | ⟨-, hyurl⟩
    · obtain ⟨store₂, hc₂, hcache₂, hurl₂, -⟩ := (hext₁.trans hext₂).stores _ _ hc
      rw [← hurl₂]
      exact hwf₂.url _ store₂ cachey hc₂ (hcache₂ ▸ hyget)
    · exact (hyurl cachey hyget).trans hurl.symm
  obtain ⟨value, hvalue, hadmits⟩ :=
    hcovered₂.instances y cachey (hy.imp id And.left) hyget hyurl
  exact ⟨value, hvalue ▸ hresult, hurl ▸ hadmits⟩

/-- Writing back what is persisted with the store's own value on top is coherent. -/
theorem coherent_synchronize {s : State} {c : Nat} {store : Store} {cache : DetailListCache}
    (hc : s.stores c = some store) (hx : s.instances store.cache = some cache)
    (hslot : store.slot.Proper) (hfinished : store.finished = false)
    (hcaches : cache.caches = Function.update (fun key => (s.defaults cache.url).bind (· key))
      store.slot.key (some store.value)) : Coherent s (.synchronize c) := by
  intro store' cache' hc' hx' slot hproper
  obtain rfl : store = store' := Option.some.inj (hc.symm.trans hc')
  obtain rfl : cache = cache' := Option.some.inj (hx.symm.trans hx')
  by_cases hkey : slot.key = store.slot.key
  · exact Or.inr ⟨store.value, by rw [hcaches, hkey, Function.update_self], c, store, hc, rfl,
      Slot.key_injective hslot hproper hkey.symm, rfl, hfinished⟩
  · exact Or.inl (by rw [hcaches, Function.update_of_ne hkey, State.persisted])

/-- In every run all of whose steps are coherent, the cache is a store with no
lost update: each step keeps the frame law, and every lookup after a finished
store sees it or a later one of its slot. -/
theorem linearizable_of_coherent (tmp : String) (fileExists : String → Bool) {tr : List Label}
    {s : State} (hrun : run (step tmp fileExists) State.init tr = some s)
    (hall : AllSteps (step tmp fileExists) Coherent State.init tr) :
    AllSteps (step tmp fileExists) (Frame tmp fileExists) State.init tr ∧
      NoLostUpdate tmp fileExists tr := by
  refine ⟨hall.imp hrun fun xs s l hprefix hgood => ?_, noLostUpdate_of_coherent hrun hall⟩
  exact frame_of_coherent (wellFormed_of_run hprefix) hgood

/-- One page visited twice: the second visit obtains its instance after the first
one's store has finished. -/
def visits : List Label :=
  [.cache "post" 0, .setObject 0 0 .torrent "/tmp/a.torrent", .synchronize 0, .relaunch,
    .cache "post" 1, .setObject 1 1 (.image "cover.png") "/tmp/cover.png", .synchronize 1]

theorem visits_linearizable :
    AllSteps (step "/tmp/" fun _ => true) (Frame "/tmp/" fun _ => true) State.init visits ∧
      NoLostUpdate "/tmp/" (fun _ => true) visits := by
  obtain ⟨s, hrun⟩ : ∃ s, run (step "/tmp/" fun _ => true) State.init visits = some s :=
    ⟨_, rfl⟩
  have hall : AllSteps (step "/tmp/" fun _ => true) Coherent State.init visits := by
    have htorrent : Slot.torrent.Proper := by simp [Slot.Proper]
    have himage : (Slot.image "cover.png").Proper := by simp [Slot.Proper]
    exact ⟨trivial, htorrent, coherent_synchronize rfl rfl htorrent rfl rfl, trivial, trivial,
      himage, coherent_synchronize rfl rfl himage rfl rfl, trivial⟩
  exact linearizable_of_coherent _ _ hrun hall

/-- Two callers hold an instance each when the first one stores the torrent and
the second one an image. -/
def twoCallers : List Label :=
  [.cache "post" 0, .cache "post" 1, .setObject 0 0 .torrent "/tmp/a.torrent", .synchronize 0,
    .setObject 1 1 (.image "cover.png") "/tmp/cover.png", .synchronize 1, .cache "post" 2,
    .lookup 2 .torrent none]

/-- In that run the finished store of the torrent is lost: the image's
`synchronize` writes back the dictionary without it. -/
theorem twoCallers_lost_update :
    (∃ s, run (step "/tmp/" fun _ => true) State.init twoCallers = some s) ∧
      ¬ NoLostUpdate "/tmp/" (fun _ => true) twoCallers := by
  refine ⟨⟨_, rfl⟩, fun h => ?_⟩
  obtain ⟨value, hresult, -⟩ := h [.cache "post" 0, .cache "post" 1] []
    [.setObject 1 1 (.image "cover.png") "/tmp/cover.png", .synchronize 1, .cache "post" 2] []
    0 0 .torrent "/tmp/a.torrent" 2 none _ _ _ _ rfl rfl rfl rfl rfl
    (Or.inr ⟨le_rfl, fun cache' hy => Option.some.inj hy ▸ rfl⟩)
  cases hresult

end TorrentApp.Detail.Cache
