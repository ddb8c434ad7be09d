import FacePerception.Mysql.TablePage
import FacePerception.Server.StaticFile

/-!
# The table on its way to a browser

`make output` in `cgi_bin` runs `client.sh`, which writes what `data_base_show` prints to
`index.html`, and copies that file to `htdocs`. There `Accept` sends it to whoever asks for
`/` (`server/server_http.h`, lines 607–657).

Results:
* `published`: when a client of the server can read the cells that `data_base_show` had.
-/

namespace FacePerception.Mysql

open CString Markup Proc HttpMessage
open Server (Env ServerHttp StaticRequest sentBytes IsFile askedPath requestBytes okLine
  serverField)

/-- The file that is published. -/
def indexPath : Bytes := bytes "htdocs/index.html"

section Publish

variable {p : Page} {env : Env} {fd fd' : ℕ} {l : Bytes} {lines : List Bytes}

/-- **From `data_base_show` to the client.** Where a page is published as the index and the
server has descriptors for `fopen` and `open`, the answer to a request for it is a message,
and the client can read the headings and the rows from its body iff none of their cells has
a `'<'`. -/
theorem published (hnode : IsFile env indexPath (pageText p)) (hfopen : env.fopenFd = some fd)
    (hopen : env.openFd = some fd') (h : StaticRequest l lines) (hpath : askedPath l = indexPath)
    (server : ServerHttp) :
    ∃ w body, Returns (Server.accept env) ⟨requestBytes l lines ++ [CR, LF], server, []⟩ () w ∧
      w.server = server ∧
      Message (sentBytes w.trace) okLine [serverField, bytes "Content-Type:text/html"] body ∧
      ((∃ items, lex body = some items ∧ Gives items p) ↔ PlainCells p) := by
  have hheader := Server.header_block Server.SIZE_sub_one_pos lines [] h.lines
  rw [← hpath] at hnode
  have hfound : env.node (askedPath l) = some (.file true (pageText p)) := hnode
  obtain ⟨w, hreturns, hserver, hsent⟩ := h.returns_accept hfound hnode hfopen server hheader
  -- the descriptor of the file is open, so that the body is the whole file
  have hbody : Server.fileBody env (pageText p) (Server.Node.file true (pageText p)).size =
      pageText p := by
    rw [Server.fileBody_eq_iff]
    exact Or.inr ⟨by simp [hopen], le_rfl⟩
  rw [hbody] at hsent
  refine ⟨w, pageText p, ?_, hserver, ?_, readsBack_iff p⟩
  · rw [requestBytes, List.append_assoc]
    exact hreturns
  · rw [hsent]
    exact Server.message_fileMessage (by decide) (by decide) _

/-- The page of a table with one row. -/
def onePage : Page where
  header := [bytes "Name", bytes "Number", bytes "Begin", bytes "End"]
  rows := [[bytes "ann", bytes "7", bytes "9:00", bytes "17:00"]]

/-- A system where it is the index. -/
def indexEnv : Env :=
  { Server.bareEnv with
    node := fun path => if path = indexPath then some (.file true (pageText onePage)) else none }

theorem staticRequest_index : StaticRequest (bytes "GET / HTTP/1.0") [bytes "Host: a"] where
  line := ⟨Server.ordinary_of_all (by decide), by decide⟩
  lines := List.forall_mem_singleton.mpr
    ⟨⟨by decide, Server.ordinary_of_all (by decide)⟩, by decide⟩
  static := by decide

/-- What a client of `GET /` reads. -/
theorem published_example :
    ∃ w body items, Returns (Server.accept indexEnv)
        ⟨requestBytes (bytes "GET / HTTP/1.0") [bytes "Host: a"] ++ [CR, LF], ServerHttp.init, []⟩
        () w ∧
      Message (sentBytes w.trace) okLine [serverField, bytes "Content-Type:text/html"] body ∧
      lex body = some items ∧ Gives items onePage := by
  have hplain : PlainCells onePage := ⟨by decide, by decide⟩
  have hnode : IsFile indexEnv indexPath (pageText onePage) := by
    simp [IsFile, indexEnv]
  obtain ⟨w, body, hreturns, -, hmessage, hiff⟩ :=
    published hnode rfl rfl staticRequest_index (by decide) ServerHttp.init
  obtain ⟨items, hlex, hgives⟩ := hiff.mpr hplain
  exact ⟨w, body, items, hreturns, hmessage, hlex, hgives⟩

end Publish

end FacePerception.Mysql
