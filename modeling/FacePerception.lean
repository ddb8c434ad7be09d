import FacePerception.Server.Accept
import FacePerception.Server.CheckIn
import FacePerception.Server.DocRoot
import FacePerception.Server.OwnTime
import FacePerception.Server.Outcome
import FacePerception.Server.PostBody
import FacePerception.Server.Survives
import FacePerception.Server.Counter
import FacePerception.Lib.Mutex
import FacePerception.Server.GetString
import FacePerception.Server.Locks
import FacePerception.Server.Descriptors
import FacePerception.Lib.HttpMessage
import FacePerception.Server.Response
import FacePerception.Server.FormData
import FacePerception.Cgi.Show
import FacePerception.Epoll.Dispatch
import FacePerception.Epoll.Edges
import FacePerception.Epoll.GetLine
import FacePerception.Server.Pipes
import FacePerception.Cgi.RecvStr
import FacePerception.Client.GetStr
import FacePerception.Server.LineStores
import FacePerception.Epoll.LineStores
import FacePerception.Lib.Tokens
import FacePerception.Server.RequestLine
import FacePerception.Server.WorkTime
import FacePerception.Epoll.StaticFile
import FacePerception.Lib.SqlText
import FacePerception.Mysql.Insert
import FacePerception.Mysql.Table
import FacePerception.Epoll.HeaderDrain
import FacePerception.Epoll.RequestLine
import FacePerception.Server.FormPairs
import FacePerception.Server.GetStringBounds
import FacePerception.Client.SendsTyped
import FacePerception.Epoll.LevelTriggered
import FacePerception.Cgi.ShowPage
import FacePerception.Server.Duration
import FacePerception.Lib.Markup
import FacePerception.Mysql.TablePage
import FacePerception.Server.AllFinish
import FacePerception.Server.Serial
import FacePerception.Server.PipeBytes
import FacePerception.Cgi.ShowPipes
import FacePerception.Server.Sessions
import FacePerception.Client.CheckIn
import FacePerception.Epoll.Accept
import FacePerception.Epoll.Drain
import FacePerception.Mysql.Publish
import FacePerception.Server.Console
import FacePerception.Server.Lifetime
import FacePerception.Server.Overlaps
import FacePerception.Server.EnoughFds
import FacePerception.Epoll.Shown
