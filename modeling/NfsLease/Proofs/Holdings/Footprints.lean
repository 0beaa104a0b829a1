/-
What requests for one file by one client read and change: that file, the records with the id of that
client, and of the other records only what no such request changes. So a request does the same on
whatever agrees on these, and leaves all else as it is.
-/
import NfsLease.Proofs.Holdings.Holders

namespace NfsLease

namespace Holdings

variable {h h' k k' : Holdings} {i j : Inode} {id : ClientId} {r : ClientRef} {f : FileState}

theorem get?_setFile (h : Holdings) (i : Inode) (f : FileState) :
    (h.setFile i f).files.get? =
      Function.update h.files.get? i (if f.isIdle then none else some f) := by
  funext j
  unfold setFile
  by_cases hj : j = i
  · subst hj
    rw [Function.update_self]
    split
    · exact Table.get?_erase_self _ _
    · exact Table.get?_put_self _ _ _
  · rw [Function.update_of_ne hj]
    split
    · exact Table.get?_erase_of_ne (Ne.symm hj) _
    · exact Table.get?_put_of_ne (Ne.symm hj) _ _

@[simp] theorem ids_setFile (h : Holdings) (i : Inode) (f : FileState) :
    (h.setFile i f).ids = h.ids := by
  unfold setFile
  split <;> rfl

/-- What files show of the holders on one of them carries the ids of the holders. -/
def NamedAt (h : Holdings) (i : Inode) : Prop :=
  ∀ e ∈ (h.file i).entries, e.stateid.client = (h.client e.client).id

/-! ## Agreement and change -/

/-- Two states look the same to the clients of an id on a file. -/
structure Agree (i : Inode) (id : ClientId) (h h' : Holdings) : Prop where
  ids : h'.ids = h.ids
  channel : ∀ r, (h'.client r).channel = (h.client r).channel
  entry : h'.files.get? i = h.files.get? i
  client : ∀ r, (h.client r).id = id → h'.client r = h.client r

/-- Nothing is changed but a file and the records of an id. -/
structure Confined (i : Inode) (id : ClientId) (h h' : Holdings) : Prop where
  ids : h'.ids = h.ids
  channel : ∀ r, (h'.client r).channel = (h.client r).channel
  entry : ∀ j, j ≠ i → h'.files.get? j = h.files.get? j
  client : ∀ r, (h.client r).id ≠ id → h'.client r = h.client r

/-- The same was done on two states that look the same, and it has stayed within the bounds. -/
structure Abreast (i : Inode) (id : ClientId) (h k k' : Holdings) : Prop where
  confined : Confined i id h k
  agree : Agree i id k k'

theorem id_eq_of_ids (hids : h'.ids = h.ids) (r : ClientRef) :
    (h'.client r).id = (h.client r).id := by
  rw [client_id, client_id, hids]

namespace Agree

theorem refl (i : Inode) (id : ClientId) (h : Holdings) : Agree i id h h :=
  ⟨rfl, fun _ => rfl, rfl, fun _ _ => rfl⟩

theorem file (a : Agree i id h h') : h'.file i = h.file i := by
  rw [Holdings.file, Holdings.file, a.entry]

end Agree

theorem Confined.refl (i : Inode) (id : ClientId) (h : Holdings) : Confined i id h h :=
  ⟨rfl, fun _ => rfl, fun _ _ => rfl, fun _ _ => rfl⟩

namespace Abreast

theorem start (a : Agree i id h h') : Abreast i id h h h' := ⟨.refl i id h, a⟩

variable (a : Abreast i id h k k')
include a

theorem setFile (f : FileState) : Abreast i id h (k.setFile i f) (k'.setFile i f) := by
  refine ⟨⟨?_, fun r => ?_, fun j hj => ?_, fun r hr => ?_⟩, ⟨?_, fun r => ?_, ?_, fun r hr => ?_⟩⟩
  · rw [ids_setFile, a.confined.ids]
  · rw [client_setFile, a.confined.channel]
  · rw [get?_setFile, Function.update_of_ne hj, a.confined.entry j hj]
  · rw [client_setFile, a.confined.client r hr]
  · rw [ids_setFile, ids_setFile, a.agree.ids]
  · rw [client_setFile, client_setFile, a.agree.channel]
  · rw [get?_setFile, get?_setFile, Function.update_self, Function.update_self]
  · rw [client_setFile] at hr
    rw [client_setFile, client_setFile, a.agree.client r hr]

/-- A record of the id is put in place. -/
theorem setClient {c : Client} (hr : (k.client r).id = id) (hid : c.id = (k.client r).id)
    (hchannel : c.channel = (k.client r).channel) :
    Abreast i id h (k.setClient r c) (k'.setClient r c) := by
  have hsame := a.agree.client r hr
  refine ⟨⟨?_, fun r' => ?_, a.confined.entry, fun r' hr' => ?_⟩,
    ⟨?_, fun r' => ?_, a.agree.entry, fun r' hr' => ?_⟩⟩
  · rw [ids_setClient hid, a.confined.ids]
  · rw [read_setClient Client.channel hchannel, a.confined.channel]
  · have hne : r' ≠ r := by
      rintro rfl
      exact hr' ((id_eq_of_ids a.confined.ids r').symm.trans hr)
    rw [client_setClient_of_ne hne, a.confined.client r' hr']
  · rw [ids_setClient hid, ids_setClient (hsame ▸ hid), a.agree.ids]
  · rw [read_setClient Client.channel hchannel, read_setClient Client.channel (hsame ▸ hchannel),
      a.agree.channel]
  · by_cases he : r' = r
    · subst he
      by_cases hk : k.Knows r'
      · have hk' : k'.Knows r' := by rwa [knows_iff, a.agree.ids, ← knows_iff]
        rw [client_setClient hk, client_setClient hk', Function.update_self, Function.update_self]
      · have hk' : ¬ k'.Knows r' := by rwa [knows_iff, a.agree.ids, ← knows_iff]
        rw [setClient_of_not_knows hk, setClient_of_not_knows hk', hsame]
    · rw [client_setClient_of_ne he] at hr'
      rw [client_setClient_of_ne he, client_setClient_of_ne he, a.agree.client r' hr']

theorem noteCall (call : HookCall) : Abreast i id h (k.noteCall call) (k'.noteCall call) :=
  ⟨⟨a.confined.ids, a.confined.channel, a.confined.entry, a.confined.client⟩,
    ⟨a.agree.ids, a.agree.channel, a.agree.entry, a.agree.client⟩⟩

theorem noteReturn : Abreast i id h (k.noteReturn i) (k'.noteReturn i) :=
  ⟨⟨a.confined.ids, a.confined.channel, a.confined.entry, a.confined.client⟩,
    ⟨a.agree.ids, a.agree.channel, a.agree.entry, a.agree.client⟩⟩

theorem file : k'.file i = k.file i := a.agree.file

theorem client (hr : (h.client r).id = id) : k'.client r = k.client r :=
  a.agree.client r ((id_eq_of_ids a.confined.ids r).trans hr)

theorem releaseState (hr : (h.client r).id = id) (s : StateId) :
    Abreast i id h (k.releaseState r s) (k'.releaseState r s) := by
  have hk := (id_eq_of_ids a.confined.ids r).trans hr
  rw [Holdings.releaseState, Holdings.releaseState, a.client hr]
  refine a.setClient hk (Client.releaseState_id _ _) ?_
  obtain ⟨states, he⟩ := (k.client r).releaseState_eq s
  rw [he]

end Abreast

/-- The same comes of it, too. -/
structure Alike {α : Type} (i : Inode) (id : ClientId) (h : Holdings) (x x' : α × Holdings) :
    Prop where
  answer : x'.1 = x.1
  abreast : Abreast i id h x.2 x'.2

theorem Abreast.createState (a : Abreast i id h k k') (hr : (h.client r).id = id) (kind : StateKind)
    (j : Inode) (owner : Option OwnerRef) :
    Alike i id h (k.createState r kind j owner) (k'.createState r kind j owner) := by
  have hk := (id_eq_of_ids a.confined.ids r).trans hr
  rw [Holdings.createState, Holdings.createState, a.client hr]
  exact ⟨rfl, a.setClient hk rfl rfl⟩

/-! ## Using an open -/

section

variable (a : Agree i id h h') (hr : (h.client r).id = id)
include a hr

theorem Agree.downgrade (s : StateId) (word : ShareWord) (deny : Mode) :
    Alike i id h (h.downgrade r s i word deny) (h'.downgrade r s i word deny) := by
  have ab := Abreast.start a
  simp only [Holdings.downgrade, a.client r hr, a.file]
  rcases (h.client r).state s with e | record
  · exact ⟨rfl, ab⟩
  dsimp only
  by_cases hbusy : (h.file i).busy = true
  · rw [if_pos hbusy, if_pos hbusy]
    exact ⟨rfl, ab⟩
  rw [if_neg hbusy, if_neg hbusy]
  cases (h.file i).opens.find? (·.isNamed (h.client r).id s) with
  | none => exact ⟨rfl, ab⟩
  | some o =>
    dsimp only
    split
    · exact ⟨rfl, ab.setFile _⟩
    · exact ⟨rfl, ab⟩

theorem Agree.shareAccess (s : StateId) : h'.shareAccess r i s = h.shareAccess r i s := by
  rw [Holdings.shareAccess, Holdings.shareAccess, a.client r hr, a.file]

theorem Agree.addLock (owner : OwnerRef) (s : StateId) (t : Instant) :
    Alike i id h (h.addLock r owner s i t) (h'.addLock r owner s i t) := by
  have ab := Abreast.start a
  simp only [Holdings.addLock, a.client r hr, a.file]
  rcases (h.client r).state s with e | record
  · exact ⟨rfl, ab⟩
  dsimp only
  by_cases hkind : record.kind ≠ .opened
  · rw [if_pos hkind, if_pos hkind]
    exact ⟨rfl, ab⟩
  rw [if_neg hkind, if_neg hkind]
  by_cases hbusy : (h.file i).busy = true
  · rw [if_pos hbusy, if_pos hbusy]
    exact ⟨rfl, ab⟩
  rw [if_neg hbusy, if_neg hbusy]
  rcases (h.client r).ensureLive t with e | _
  · exact ⟨rfl, ab⟩
  dsimp only
  split
  · obtain ⟨hs, ab⟩ := ab.createState hr (.lock record.stateid) i (some owner)
    exact ⟨congrArg Except.ok hs, ab⟩
  · exact ⟨rfl, ab⟩

end

/-! ## Giving up -/

theorem Abreast.releaseDelegations (a : Abreast i id h k k') {ds : List DelegationState}
    (hds : ∀ d ∈ ds, (h.client d.client).id = id) :
    Abreast i id h (k.releaseDelegations ds) (k'.releaseDelegations ds) := by
  induction ds generalizing k k' with
  | nil => exact a
  | cons d ds ih =>
    obtain ⟨hd, hds⟩ := List.forall_mem_cons.1 hds
    exact ih (a.releaseState hd d.stateid) hds

theorem Agree.returnDelegation (a : Agree i id h h') (hr : (h.client r).id = id) (s : StateId) :
    Alike i id h (h.returnDelegation r s i) (h'.returnDelegation r s i) := by
  have ab := Abreast.start a
  simp only [Holdings.returnDelegation, a.client r hr, a.file]
  by_cases hbusy : (h.file i).busy = true
  · rw [if_pos hbusy, if_pos hbusy]
    exact ⟨rfl, ab⟩
  rw [if_neg hbusy, if_neg hbusy]
  cases (h.file i).delegations.find? fun d =>
    d.holder == (h.client r).id && d.stateid.sameState s with
  | none => exact ⟨rfl, ab⟩
  | some d => exact ⟨rfl, ((ab.releaseState hr d.stateid).setFile _).noteReturn⟩

/-- What a client closes is its own: the state id on the file names the record that it is taken
from. -/
theorem Agree.removeOpen {s : StateId} (a : Agree i s.client h h') (hn : h.NamedAt i) :
    Alike i s.client h (h.removeOpen i s) (h'.removeOpen i s) := by
  have ab := Abreast.start a
  simp only [Holdings.removeOpen, a.file]
  by_cases hbusy : (h.file i).busy = true
  · rw [if_pos hbusy, if_pos hbusy]
    exact ⟨rfl, ab⟩
  rw [if_neg hbusy, if_neg hbusy]
  cases ho : (h.file i).opens.find? (·.stateid.sameState s) with
  | none => exact ⟨rfl, ab⟩
  | some o =>
    have hsame : o.stateid.sameState s = true := by simpa using List.find?_some ho
    have hholder := (StateId.sameState_iff.1 hsame).1
    have hclient : (h.client o.client).id = s.client :=
      (hn _ (FileState.entry_mem_of_open (List.mem_of_find?_eq_some ho))).symm.trans hholder
    dsimp only
    refine ⟨rfl, (((Abreast.releaseDelegations (ab.releaseState hclient o.stateid) ?_).setFile
      _).noteCall _).noteReturn⟩
    -- a delegation that goes along is of the same holder
    intro d hd
    rw [List.partition_eq_filter_filter] at hd
    obtain ⟨hd, hholds⟩ := List.mem_filter.1 hd
    have hholds : d.stateid.client = o.stateid.client :=
      eq_of_beq (Bool.and_eq_true_iff.1 hholds).2
    exact (hn _ (FileState.entry_mem_of_delegation hd)).symm.trans (hholds.trans hholder)

/-! ## Opening -/

variable {q : OpenRequest}

theorem newRecalls_congr (hchannel : ∀ r, (k'.client r).channel = (k.client r).channel)
    (f : FileState) (client : ClientId) (access deny : Mode) :
    k'.newRecalls f client access deny = k.newRecalls f client access deny := by
  simp only [newRecalls, hchannel]

theorem Abreast.askHook (a : Abreast q.inode id h k k') (question : HookQuestion) :
    Alike q.inode id h (k.askHook q question) (k'.askHook q question) := by
  rw [Holdings.askHook, Holdings.askHook, a.file]
  exact ⟨rfl, (a.setFile _).noteCall _⟩

theorem Abreast.askNew (a : Abreast q.inode id h k k') (hr : (h.client q.client).id = id)
    (purpose : HookPurpose) :
    Alike q.inode id h (k.askNew q purpose) (k'.askNew q purpose) := by
  obtain ⟨hs, ab⟩ := a.createState hr .opened q.inode (some q.owner)
  have hask := ab.askHook ⟨purpose, (k.createState q.client .opened q.inode (some q.owner)).1⟩
  rw [Holdings.askNew, Holdings.askNew]
  dsimp only
  rw [hs]
  exact hask

theorem Agree.look (a : Agree q.inode id h h') (hr : (h.client q.client).id = id) (t : Instant) :
    Alike q.inode id h (h.look q t) (h'.look q t) := by
  have ab := Abreast.start a
  simp only [Holdings.look, a.client _ hr, a.file, newRecalls_congr a.channel]
  by_cases hbusy : (h.file q.inode).busy = true
  · rw [if_pos hbusy, if_pos hbusy]
    exact ⟨rfl, ab⟩
  rw [if_neg hbusy, if_neg hbusy]
  cases (h.client q.client).ensureLive t with
  | error e => exact ⟨rfl, ab⟩
  | ok _ =>
    dsimp only
    cases (h.file q.inode).clash? q.access q.deny with
    | some o =>
      dsimp only
      split
      · exact ⟨rfl, ab⟩
      · exact ab.askNew hr _
    | none =>
      dsimp only
      split
      · exact ⟨rfl, ab.setFile _⟩
      · cases (h.file q.inode).ownOpen? (h.client q.client).id q.owner.name with
        | some o => exact ab.askHook _
        | none => exact ab.askNew hr _

theorem Abreast.grantDelegation (a : Abreast q.inode id h k k') (hr : (h.client q.client).id = id)
    (policy : DelegationPolicy) (access : Mode) (repeated : Bool) (t : Instant) (f : FileState) :
    (grantDelegation policy q access repeated t f k').1 =
        (grantDelegation policy q access repeated t f k).1 ∧
      Alike q.inode id h (grantDelegation policy q access repeated t f k).2
        (grantDelegation policy q access repeated t f k').2 := by
  simp only [Holdings.grantDelegation, a.client hr]
  cases (k.client q.client).ensureLive t with
  | error e => exact ⟨rfl, rfl, a⟩
  | ok _ =>
    dsimp only
    cases f.delegations.find? (·.holder == (k.client q.client).id) with
    | some d => exact ⟨rfl, rfl, a⟩
    | none =>
      dsimp only
      split
      · exact ⟨rfl, rfl, a⟩
      · cases delegationFor policy f (k.client q.client).id q.word.want access repeated with
        | none => exact ⟨rfl, rfl, a⟩
        | some kind =>
          obtain ⟨hs, ab⟩ := a.createState hr (.delegation kind) q.inode none
          dsimp only
          rw [hs]
          exact ⟨rfl, rfl, ab⟩

/-- An open is granted, with a delegation if there is one to be given. -/
theorem Abreast.granted (a : Abreast q.inode id h k k') (hr : (h.client q.client).id = id)
    (policy : DelegationPolicy) (s : StateId) (access : Mode) (repeated : Bool) (t : Instant)
    (f : FileState) :
    let outcome : Option DelegationGrant × FileState × Holdings →
        Except Error OpenGrant × Holdings :=
      fun (delegation, f, k) => (.ok ⟨s, delegation⟩, k.setFile q.inode f)
    Alike q.inode id h (outcome (Holdings.grantDelegation policy q access repeated t f k))
      (outcome (Holdings.grantDelegation policy q access repeated t f k')) := by
  obtain ⟨hgrant, hfile, ab⟩ := a.grantDelegation hr policy access repeated t f
  generalize Holdings.grantDelegation policy q access repeated t f k = x at hgrant hfile ab
  generalize Holdings.grantDelegation policy q access repeated t f k' = x' at hgrant hfile ab
  obtain ⟨grant, f, k⟩ := x
  obtain ⟨grant', f', k'⟩ := x'
  cases hgrant
  cases hfile
  exact ⟨rfl, ab.setFile f⟩

theorem Abreast.settle (a : Abreast q.inode id h k k') (hr : (h.client q.client).id = id)
    (policy : DelegationPolicy) (question : HookQuestion) (refusal : Option String) (t : Instant) :
    Alike q.inode id h (k.settle policy q question refusal t)
      (k'.settle policy q question refusal t) := by
  obtain ⟨purpose, s⟩ := question
  simp only [Holdings.settle, a.client hr, a.file]
  cases purpose with
  | denied holder => exact ⟨rfl, (a.releaseState hr s).setFile _⟩
  | merge =>
    cases refusal with
    | some text => exact ⟨rfl, a.setFile _⟩
    | none => exact a.granted hr policy s _ _ t _
  | create =>
    cases refusal with
    | some text => exact ⟨rfl, (a.releaseState hr s).setFile _⟩
    | none => exact a.granted hr policy s _ _ t _

/-! ## Two requests -/

/-- On a state a request does what it does on all that look the same to it. -/
def Keeps {α : Type} (i : Inode) (id : ClientId) (op : Holdings → α × Holdings) (h : Holdings) :
    Prop :=
  ∀ h', Agree i id h h' → Alike i id h (op h) (op h')

theorem Keeps.confined {α : Type} {op : Holdings → α × Holdings} (hop : Keeps i id op h) :
    Confined i id h (op h).2 :=
  (hop h (.refl i id h)).abreast.confined

/-- What a request leaves alone looks the same to the other one. -/
theorem Confined.agree {id' : ClientId} (hc : Confined j id' h k) (hi : i ≠ j) (hid : id ≠ id') :
    Agree i id h k :=
  ⟨hc.ids, hc.channel, hc.entry i hi, fun r hr => hc.client r (hr ▸ hid)⟩

theorem Confined.namedAt (hc : Confined j id h k) (hi : i ≠ j) (hn : h.NamedAt i) :
    k.NamedAt i := by
  intro e he
  rw [Holdings.file, hc.entry i hi] at he
  rw [id_eq_of_ids hc.ids]
  exact hn e he

theorem clients_eq_of_client (hids : k.ids = h.ids) (hclient : k.client = h.client) :
    k.clients = h.clients := by
  have hlength : k.clients.length = h.clients.length := by
    simpa [Holdings.ids] using congrArg List.length hids
  apply List.ext_getElem hlength
  intro n hn hn'
  have hread := congrFun hclient ⟨n⟩
  simpa [Holdings.client, hn, hn'] using hread

/-- Requests for different files by clients of different ids do the same in either order. -/
theorem Keeps.commute {α β : Type} {id' : ClientId} {a : Holdings → α × Holdings}
    {b : Holdings → β × Holdings} (hi : i ≠ j) (hid : id ≠ id') (ha : Keeps i id a h)
    (hb : Keeps j id' b h) (hab : Keeps j id' b (a h).2) (hba : Keeps i id a (b h).2) :
    (b (a h).2).1 = (b h).1 ∧ (a (b h).2).1 = (a h).1 ∧
    (b (a h).2).2.files.get? = (a (b h).2).2.files.get? ∧
    (b (a h).2).2.clients = (a (b h).2).2.clients := by
  have hca := ha.confined
  have hcb := hb.confined
  have hcab := hab.confined
  have hcba := hba.confined
  have hb' := hb _ (hca.agree (Ne.symm hi) (Ne.symm hid))
  have ha' := ha _ (hcb.agree hi hid)
  refine ⟨hb'.answer, ha'.answer, funext fun k => ?_, clients_eq_of_client ?_ (funext fun r => ?_)⟩
  · by_cases hki : k = i
    · subst hki
      rw [hcab.entry k hi, ha'.abreast.agree.entry]
    · by_cases hkj : k = j
      · subst hkj
        rw [hcba.entry k (Ne.symm hi), hb'.abreast.agree.entry]
      · rw [hcab.entry k hkj, hca.entry k hki, hcba.entry k hki, hcb.entry k hkj]
  · rw [hcab.ids, hca.ids, hcba.ids, hcb.ids]
  · have ida := id_eq_of_ids hca.ids r
    have idb := id_eq_of_ids hcb.ids r
    by_cases hr : (h.client r).id = id
    · rw [hcab.client r (by rw [ida, hr]; exact hid), ha'.abreast.agree.client r (ida.trans hr)]
    · by_cases hr' : (h.client r).id = id'
      · rw [hcba.client r (by rw [idb, hr']; exact Ne.symm hid),
          hb'.abreast.agree.client r (idb.trans hr')]
      · rw [hcab.client r (by rwa [ida]), hca.client r hr, hcba.client r (by rwa [idb]),
          hcb.client r hr']

end Holdings

end NfsLease
