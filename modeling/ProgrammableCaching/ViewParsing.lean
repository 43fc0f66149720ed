import ProgrammableCaching.Library.Fields
import ProgrammableCaching.ServerlessSystemView

/-! What `ParseGetViewReply` takes from a reply: the host of a uri, the storage that the
name of a manager stands for, and what it notes about the engine of a host. -/

namespace ProgrammableCaching

open UnorderedMap

/-! ## Names and addresses -/

/-- The host part of a uri. -/
def hostPart (uri : String) : String := String.ofList (Fields.first ':' uri.toList)

theorem uriToHostname_eq (uri : String) :
    uriToHostname uri = if ':' ∈ uri.toList then .ok (hostPart uri) else .error .badIterator := rfl

/-- The name has the form `prefix:STORAGE_NAME:rest`. -/
def NamesStorage (name : String) (storage : StorageName) : Prop :=
  storage.Declared ∧ ∃ first rest : String, ':' ∉ first.toList ∧
    name = first ++ ":" ++ storage.name ++ ":" ++ rest

/-- What stands behind the first `:` of a name decides. -/
theorem namesStorage_iff {name : String} {storage : StorageName} {first rest : List Char}
    (hfirst : ':' ∉ first) (hname : name.toList = first ++ ':' :: rest) :
    NamesStorage name storage ↔
      storage.Declared ∧ ∃ tail, rest = storage.name.toList ++ ':' :: tail := by
  refine and_congr_right fun _ => ⟨?_, ?_⟩
  · rintro ⟨first', rest', hfirst', rfl⟩
    have hjoin : first'.toList ++ ':' :: (storage.name.toList ++ ':' :: rest'.toList) =
        first ++ ':' :: rest := by
      rw [← hname]
      simp
    exact ⟨_, ((Fields.join_inj hfirst' hfirst).mp hjoin).2.symm⟩
  · rintro ⟨tail, rfl⟩
    refine ⟨String.ofList first, String.ofList tail, by simpa using hfirst, ?_⟩
    rw [← String.toList_inj, hname]
    simp

/-- The parser finds the storage exactly in the names of that form. -/
theorem nameToStorageName_parses_iff (name : String) (storage : StorageName) :
    (∃ sName, nameToStorageName name = .ok sName ∧ StorageName.parse sName = some storage) ↔
      NamesStorage name storage := by
  by_cases hcolon : ':' ∈ name.toList
  · have hslice : nameToStorageName name =
        if ':' ∈ Fields.behind ':' name.toList
        then .ok (hostPart (String.ofList (Fields.behind ':' name.toList)))
        else .error .badIterator := by
      simp only [nameToStorageName, if_pos hcolon, hostPart, String.toList_ofList]
      rfl
    rw [hslice, namesStorage_iff Fields.sep_notMem_first (Fields.join_first_behind hcolon).symm]
    constructor
    · rintro ⟨sName, hok, hparse⟩
      obtain ⟨hdeclared, rfl⟩ := StorageName.parse_eq_some.mp hparse
      split at hok
      · rename_i hsecond
        refine ⟨hdeclared, Fields.behind ':' (Fields.behind ':' name.toList), ?_⟩
        rw [← Except.ok.inj hok, hostPart, String.toList_ofList, String.toList_ofList,
          Fields.join_first_behind hsecond]
      · cases hok
    · rintro ⟨hdeclared, tail, htail⟩
      refine ⟨storage.name, ?_, StorageName.parse_eq_some.mpr ⟨hdeclared, rfl⟩⟩
      rw [htail, if_pos (by simp), hostPart, String.toList_ofList,
        Fields.first_join storage.colon_notMem_name, String.ofList_toList]
  · refine iff_of_false ?_ ?_
    · rintro ⟨sName, hok, _⟩
      simp [nameToStorageName, hcolon] at hok
    · rintro ⟨_, first, rest, _, rfl⟩
      simp at hcolon

theorem NamesStorage.unique {name : String} {storage storage' : StorageName}
    (h : NamesStorage name storage) (h' : NamesStorage name storage') : storage = storage' := by
  obtain ⟨sName, hok, hparse⟩ := (nameToStorageName_parses_iff name storage).mpr h
  obtain ⟨sName', hok', hparse'⟩ := (nameToStorageName_parses_iff name storage').mpr h'
  cases hok.symm.trans hok'
  exact Option.some.inj (hparse.symm.trans hparse')

theorem NamesStorage.ne_empty {name : String} {storage : StorageName}
    (h : NamesStorage name storage) : name ≠ "" := by
  obtain ⟨_, first, rest, _, rfl⟩ := h
  simp

namespace ServerlessSystemView

/-! ## What is parsed -/

theorem parseManagerView_ok_iff (v : ServerlessSystemView) (view : ManagerView) :
    (∃ v', v.parseManagerView view = .ok v') ↔
      ':' ∈ view.uri.toList ∧ ∃ storage, NamesStorage view.name storage := by
  simp only [← nameToStorageName_parses_iff]
  by_cases hcolon : ':' ∈ view.uri.toList
  · cases hname : nameToStorageName view.name with
    | error e => simp [parseManagerView, uriToHostname_eq, hcolon, hname, bind, Except.bind]
    | ok sName =>
        cases hparse : StorageName.parse sName with
        | none =>
            simp [parseManagerView, uriToHostname_eq, hcolon, hname, hparse, bind, Except.bind,
              throw, throwThe, MonadExceptOf.throw]
        | some storage =>
            simp [parseManagerView, uriToHostname_eq, hcolon, hname, hparse, bind, Except.bind,
              pure, Except.pure]
  · simp [parseManagerView, uriToHostname_eq, hcolon, bind, Except.bind]

theorem parseClientView_ok_iff (v : ServerlessSystemView) (client : ClientView) :
    (∃ v', v.parseClientView client = .ok v') ↔ ':' ∈ client.uri.toList := by
  by_cases hcolon : ':' ∈ client.uri.toList
  · simp [parseClientView, uriToHostname_eq, hcolon, bind, Except.bind, pure, Except.pure]
  · simp [parseClientView, uriToHostname_eq, hcolon, bind, Except.bind]

/-- A reply is parsed to its end whatever the view was before. -/
theorem parseGetViewReply_ok_iff (v : ServerlessSystemView) (reply : GetViewReply) :
    (∃ v', v.parseGetViewReply reply = .ok v') ↔
      (∀ view ∈ reply.view, ':' ∈ view.uri.toList ∧
        ∃ storage, NamesStorage view.name storage) ∧
        ∀ client ∈ reply.client, ':' ∈ client.uri.toList := by
  rw [← foldlM_ok_iff parseManagerView_ok_iff (b := v)]
  simp only [parseGetViewReply_ok]
  constructor
  · rintro ⟨v', v₁, hviews, hclients⟩
    exact ⟨⟨v₁, hviews⟩, (foldlM_ok_iff parseClientView_ok_iff).mp ⟨v', hclients⟩⟩
  · rintro ⟨⟨v₁, hviews⟩, hclients⟩
    obtain ⟨v', hv'⟩ := (foldlM_ok_iff parseClientView_ok_iff (b := v₁)).mpr hclients
    exact ⟨v', v₁, hviews, hv'⟩

end ServerlessSystemView

end ProgrammableCaching
