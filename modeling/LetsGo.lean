import LetsGo.GoString
import LetsGo.Mr.Master
import LetsGo.Mr.Coordinator
import LetsGo.Mr.Reducer
import LetsGo.GeeRpc.Server
import LetsGo.Gee.Trie
import LetsGo.Gee.Router
import LetsGo.Gee.Engine
import LetsGo.Gee.Routing
import LetsGo.Utf8
import LetsGo.Json
import LetsGo.JsonDecode
import LetsGo.Mr.Files
import LetsGo.Mr.Worker
import LetsGo.GeeRpc.Conn
import LetsGo.Path
import LetsGo.Gee.Static
import LetsGo.GeeRpc.Session
